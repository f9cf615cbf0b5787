import SRCommon.SRLM.DataTypeXml

/-!
# What is loaded from a saved value

A value comes back with each variable under the hash of the decimal digits of
its key, which is another key in general.
-/

namespace SRCommon

namespace XmlConversions

variable (xml : XmlConversions)

theorem asInt_int8 (n : Int8) : (xml.asInt (Text.intText n.toInt)).toInt8 = n := by
  have h := xml.asInt_intText n.toInt32
  rw [Int8.toInt_toInt32] at h
  rw [h, Int8.toInt8_toInt32]

theorem asInt_int16 (n : Int16) : (xml.asInt (Text.intText n.toInt)).toInt16 = n := by
  have h := xml.asInt_intText n.toInt32
  rw [Int16.toInt_toInt32] at h
  rw [h, Int16.toInt16_toInt32]

theorem asUInt_uint8 (n : UInt8) : (xml.asUInt (Text.natText n.toNat)).toUInt8 = n := by
  have h := xml.asUInt_natText n.toUInt32
  rw [UInt8.toNat_toUInt32] at h
  rw [h, UInt8.toUInt8_toUInt32]

theorem asUInt_uint16 (n : UInt16) : (xml.asUInt (Text.natText n.toNat)).toUInt16 = n := by
  have h := xml.asUInt_natText n.toUInt32
  rw [UInt16.toNat_toUInt32] at h
  rw [h, UInt16.toUInt16_toUInt32]

end XmlConversions

namespace ValueType

/-- A string is written up to its first zero byte. -/
def cut : (type : ValueType) → type.Value → type.Value
  | string, value => Text.cstr value
  | _, value => value

/-- Not a string with a zero byte. -/
def ZeroFree : (type : ValueType) → type.Value → Prop
  | string, value => (fun text : Text => 0 ∉ text) value
  | _, _ => True

theorem cut_eq_self_iff {type : ValueType} {value : type.Value} :
    type.cut value = value ↔ type.ZeroFree value := by
  cases type with
  | string =>
      constructor
      · intro h
        change Text.cstr value = value at h
        have hzero := Text.zero_notMem_cstr value
        rw [h] at hzero
        exact hzero
      · exact fun h => Text.cstr_eq_self h
  | _ => exact iff_of_true rfl trivial

theorem ofXml_toXml (xml : XmlConversions) {type : ValueType} (hfloat : type ≠ .float)
    (hdouble : type ≠ .double) (value : type.Value) :
    type.ofXml xml (type.toXml xml value).cstr = type.cut value := by
  have hdigits : ∀ n, (Text.natText n).cstr = Text.natText n := fun n =>
    Text.cstr_eq_self (Text.notMem_natText (by decide))
  have hnumber : ∀ n, (Text.intText n).cstr = Text.intText n := by
    rintro (n | n)
    · exact hdigits n
    · refine Text.cstr_eq_self (List.not_mem_cons_of_ne_of_not_mem (by decide) ?_)
      exact Text.notMem_natText (by decide)
  cases type with
  | float => exact absurd rfl hfloat
  | double => exact absurd rfl hdouble
  | string => rfl
  | bool =>
      cases (value : Bool) with
      | true => exact xml.asBool_true
      | false => exact xml.asBool_false
  | int8 =>
      rw [ofXml, toXml, hnumber]
      exact xml.asInt_int8 value
  | int16 =>
      rw [ofXml, toXml, hnumber]
      exact xml.asInt_int16 value
  | int32 =>
      rw [ofXml, toXml, hnumber]
      exact xml.asInt_intText value
  | int64 =>
      rw [ofXml, toXml, hnumber]
      exact xml.asLLong_intText value
  | uint8 =>
      rw [ofXml, toXml, hdigits]
      exact xml.asUInt_uint8 value
  | uint16 =>
      rw [ofXml, toXml, hdigits]
      exact xml.asUInt_uint16 value
  | uint32 =>
      rw [ofXml, toXml, hdigits]
      exact xml.asUInt_natText value
  | uint64 =>
      rw [ofXml, toXml, hdigits]
      exact xml.asULLong_natText value

theorem attributeName_ne (type : ValueType) : type.attributeName ≠ Text.lit "Name" ∧
    type.attributeName ≠ Text.lit "Class" ∧ type.attributeName ≠ Text.lit "VarName" := by
  cases type <;> decide

end ValueType

namespace DataTypeClass

theorem cstr_toStringAtom (c : DataTypeClass) : c.toStringAtom.cstr = c.toStringAtom := by
  cases c <;> decide

end DataTypeClass

/-- The variables of a struct type that is registered under the name of the class. -/
def DataTypeManager.classVars (types : DataTypeManager) : DataVars :=
  (types.structs (hashArrayRepresentation DataTypeClass.struct.toStringAtom)).getD []

theorem DataTypeManager.sorted_classVars (types : DataTypeManager) : types.classVars.Sorted := by
  unfold classVars
  cases h : types.structs (hashArrayRepresentation DataTypeClass.struct.toStringAtom) with
  | none => exact List.Pairwise.nil
  | some vars => exact types.sorted _ _ h

/-- The key under which a variable is loaded. -/
def loadedKey (hashName : UInt64) : UInt64 := hashArrayRepresentation (Text.natText hashName.toNat)

namespace DataType

variable (types : DataTypeManager) (names : HashManager)

mutual

/-- What is loaded from a saved value. -/
def reload : DataType → DataType
  | leaf (.value type) value =>
      (types.structs (hashArrayRepresentation type.attributeName)).elim
        (leaf (.value type) (type.cut value))
        (struct (hashArrayRepresentation type.attributeName))
  | leaf type value => leaf type value
  | struct name vars =>
      struct (hashArrayRepresentation (names.hashToString name).cstr)
        (SortedMap.insertAll UInt64.toNat (reloadVars vars) types.classVars)

def reloadVars : List (UInt64 × DataType) → List (UInt64 × DataType)
  | [] => []
  | (hashName, data) :: vars => (loadedKey hashName, data.reload) :: reloadVars vars

end

variable {types names} {xml : XmlConversions}

theorem reload_value (type : ValueType) (value : type.Value) :
    reload types names (leaf (.value type) value) =
      (types.structs (hashArrayRepresentation type.attributeName)).elim
        (leaf (.value type) (type.cut value))
        (struct (hashArrayRepresentation type.attributeName)) := rfl

theorem reloadVars_eq (vars : List (UInt64 × DataType)) :
    reloadVars types names vars =
      vars.map fun var => (loadedKey var.1, var.2.reload types names) := by
  induction vars with
  | nil => rfl
  | cons var vars ih => rw [reloadVars, ih, List.map_cons]

/-! ## Created values -/

theorem nodup_allocators : (allocators.map getHashName).Nodup := by decide +kernel

theorem allocate_getHashName (data : DataType) (h : data ∈ allocators) :
    allocate data.getHashName = some data := by
  obtain ⟨found, hfound⟩ := Option.isSome_iff_exists.mp
    (List.find?_isSome (p := fun d : DataType => decide (d.getHashName = data.getHashName))
      |>.mpr ⟨data, h, by simp⟩)
  have hname : found.getHashName = data.getHashName := by simpa using List.find?_some hfound
  rw [allocate, hfound,
    List.inj_on_of_nodup_map nodup_allocators (List.mem_of_find?_eq_some hfound) h hname]

theorem createByName_attributeName (type : ValueType) :
    types.createByName type.attributeName =
      some ((types.structs (hashArrayRepresentation type.attributeName)).elim
        (leaf (.value type) type.default)
        (struct (hashArrayRepresentation type.attributeName))) := by
  have hallocate : allocate (hashArrayRepresentation type.attributeName) =
      some (leaf (.value type) type.default) :=
    allocate_getHashName (leaf (.value type) type.default)
      (by cases type <;> simp [allocators, ValueType.all])
  unfold DataTypeManager.createByName
  dsimp only
  rw [hallocate]
  cases types.structs (hashArrayRepresentation type.attributeName) <;> rfl

theorem createByName_struct (types : DataTypeManager) :
    ∃ name, types.createByName DataTypeClass.struct.toStringAtom =
      some (struct name types.classVars) := by
  have hallocate : allocate (hashArrayRepresentation DataTypeClass.struct.toStringAtom) =
      some (struct (-1) []) :=
    allocate_getHashName (struct (-1) []) (by simp [allocators])
  unfold DataTypeManager.createByName DataTypeManager.classVars
  dsimp only
  rw [hallocate]
  cases types.structs (hashArrayRepresentation DataTypeClass.struct.toStringAtom) <;> exact ⟨_, rfl⟩

/-! ## What is loaded -/

/-- Booleans, integers, strings and structs. -/
def PlainType : DataType → Prop
  | leaf (.value type) _ => type ≠ .float ∧ type ≠ .double
  | leaf _ _ => False
  | struct _ _ => True

/-- What is read from a saved node, which may have got the name of a variable before. -/
theorem appended_names {tag : XmlTag} (htag : ∀ a ∈ tag.attributes, a.1 = Text.lit "VarName")
    (data : DataType) {name : Text} (hname : name ≠ Text.lit "Name")
    (hclass : name ≠ Text.lit "Class") (hvar : name ≠ Text.lit "VarName") (value : Text) :
    ((tag.appendNames data).appendAttribute name value).getAttribute (Text.lit "Name") =
        some data.getName.cstr ∧
      ((tag.appendNames data).appendAttribute name value).text (Text.lit "Class") =
        data.getClass.toStringAtom ∧
      ((tag.appendNames data).appendAttribute name value).text name = value.cstr ∧
      ((tag.appendNames data).appendAttribute name value).text (Text.lit "VarName") =
        tag.text (Text.lit "VarName") := by
  have hne : ∀ n, n ≠ Text.lit "VarName" → ∀ a ∈ tag.attributes, a.1 ≠ n :=
    fun n hn a ha heq => hn (heq.symm.trans (htag a ha))
  have hne' : ∀ a ∈ (tag.appendAttribute (Text.lit "Name") data.getName).attributes,
      a.1 ≠ Text.lit "Class" := by
    intro a ha
    rcases List.mem_append.mp ha with ha | ha
    · exact hne _ (by decide) a ha
    · rw [List.mem_singleton.mp ha]
      exact (by decide : Text.lit "Name" ≠ Text.lit "Class")
  have hlast : ∀ a ∈ (tag.appendNames data).attributes, a.1 ≠ name := by
    intro a ha
    rcases List.mem_append.mp ha with ha | ha
    · rcases List.mem_append.mp ha with ha | ha
      · exact hne _ hvar a ha
      · rw [List.mem_singleton.mp ha]
        exact hname.symm
    · rw [List.mem_singleton.mp ha]
      exact hclass.symm
  unfold XmlTag.text
  refine ⟨?_, ?_, ?_, ?_⟩
  · rw [XmlTag.getAttribute_appendAttribute_of_ne _ _ _ hname, XmlTag.appendNames,
      XmlTag.getAttribute_appendAttribute_of_ne _ _ _ (by decide),
      XmlTag.getAttribute_appendAttribute_self _ _ _ (hne _ (by decide))]
  · rw [XmlTag.getAttribute_appendAttribute_of_ne _ _ _ hclass, XmlTag.appendNames,
      XmlTag.getAttribute_appendAttribute_self _ _ _ hne', DataTypeClass.cstr_toStringAtom]
    rfl
  · rw [XmlTag.getAttribute_appendAttribute_self _ _ _ hlast]
    rfl
  · rw [XmlTag.getAttribute_appendAttribute_of_ne _ _ _ hvar, XmlTag.appendNames,
      XmlTag.getAttribute_appendAttribute_of_ne _ _ _ (by decide),
      XmlTag.getAttribute_appendAttribute_of_ne _ _ _ (by decide)]

theorem loadXml_leaf {tag : XmlTag} (htag : ∀ a ∈ tag.attributes, a.1 = Text.lit "VarName")
    {type : ValueType} (hfloat : type ≠ .float) (hdouble : type ≠ .double) (value : type.Value) :
    loadXml types xml (.node ((tag.appendNames (leaf (.value type) value)).appendAttribute
        type.attributeName (type.toXml xml value)) []) =
      some (some (reload types names (leaf (.value type) value))) := by
  obtain ⟨hname, hclass, hvalue, -⟩ := appended_names htag (leaf (.value type) value)
    type.attributeName_ne.1 type.attributeName_ne.2.1 type.attributeName_ne.2.2
    (type.toXml xml value)
  have hcstr : (leaf (.value type) value).getName.cstr = type.attributeName :=
    DataTypeClass.cstr_toStringAtom type.getClass
  have hof : DataTypeClass.fromString (leaf (.value type) value).getClass.toStringAtom =
      type.getClass := DataTypeClass.fromString_toStringAtom _
  have hload : ∀ (data : DataType) tag name loadVars,
      data.loadAs types xml tag name loadVars type.getClass =
        (data.setCustomValue type (type.ofXml xml (tag.text type.attributeName))).map some := by
    cases type <;> exact fun _ _ _ _ => rfl
  rw [loadXml, hname, Option.elim_some, hcstr, createByName_attributeName, Option.elim_some,
    hclass, hof, hload, hvalue, ValueType.ofXml_toXml xml hfloat hdouble, reload_value]
  cases types.structs (hashArrayRepresentation type.attributeName) with
  | some vars => rfl
  | none =>
      change ((type.cast type (type.cut value)).map (leaf (.value type))).map some = _
      rw [ValueType.cast_self]
      rfl

theorem text_varTag (hashName : UInt64) :
    (varTag hashName).text (Text.lit "VarName") = Text.natText hashName.toNat := by
  unfold varTag XmlTag.text
  rw [XmlTag.getAttribute_appendAttribute_self _ _ _ (by simp), Option.getD_some,
    Text.cstr_eq_self (Text.notMem_natText (by decide))]

theorem loadVars_cons {node : XmlNode} (hnode : node.label.name = Text.lit "Var") {data : DataType}
    (hdata : loadXml types xml node = some (some data)) (nodes : List XmlNode) (vars : DataVars) :
    loadVars types xml (node :: nodes) vars = loadVars types xml nodes (vars.addVariable
      (hashArrayRepresentation (node.label.text (Text.lit "VarName"))) data) := by
  rw [loadVars, if_pos hnode, hdata]
  rfl

mutual

theorem loadXml_saveXml : ∀ (data : DataType) {tag : XmlTag} {node : XmlNode},
    data.All PlainType → (∀ a ∈ tag.attributes, a.1 = Text.lit "VarName") →
      saveXml names xml data tag = some node →
        node.label.name = tag.name ∧
        node.label.text (Text.lit "VarName") = tag.text (Text.lit "VarName") ∧
        loadXml types xml node = some (some (reload types names data))
  | leaf (.value type) value, tag, node, hplain, htag, hsave => by
      obtain rfl := Option.some.inj hsave
      obtain ⟨-, -, -, hvar⟩ := appended_names htag (leaf (.value type) value)
        type.attributeName_ne.1 type.attributeName_ne.2.1 type.attributeName_ne.2.2
        (type.toXml xml value)
      exact ⟨rfl, hvar, loadXml_leaf htag hplain.1 hplain.2 value⟩
  | struct name vars, tag, node, hplain, htag, hsave => by
      obtain ⟨info, hinfo, hsave⟩ := Option.bind_eq_some_iff.mp hsave
      obtain ⟨nodes, hnodes, hsave⟩ := Option.bind_eq_some_iff.mp hsave
      obtain rfl := Option.some.inj hsave
      have hattribute : Text.lit "Struct" ≠ Text.lit "Name" ∧
          Text.lit "Struct" ≠ Text.lit "Class" ∧ Text.lit "Struct" ≠ Text.lit "VarName" := by decide
      obtain ⟨hname, hclass, hstruct, hvar⟩ := appended_names htag (struct name vars)
        hattribute.1 hattribute.2.1 hattribute.2.2 info.data
      obtain ⟨created, hcreate⟩ := createByName_struct types
      have htext : names.hashToString name = info.data := by
        rw [HashManager.hashToString, hinfo]
        rfl
      refine ⟨rfl, hvar, ?_⟩
      rw [loadXml, hname, Option.elim_some, getName, DataTypeClass.cstr_toStringAtom, hcreate,
        Option.elim_some, hclass, DataTypeClass.fromString_toStringAtom]
      change (loadVars types xml nodes _).map _ = _
      rw [loadVars_saveVars vars hplain.2 hnodes, hstruct, reload, htext]
      rfl

theorem loadVars_saveVars : ∀ (vars : DataVars) {nodes : List XmlNode}, AllVars PlainType vars →
    saveVars names xml vars = some nodes → ∀ base : DataVars,
      loadVars types xml nodes base =
        some (SortedMap.insertAll UInt64.toNat (reloadVars types names vars) base)
  | [], nodes, _, hsave, base => by
      obtain rfl := Option.some.inj hsave
      rfl
  | (hashName, data) :: vars, nodes, hplain, hsave, base => by
      obtain ⟨node, hnode, hsave⟩ := Option.bind_eq_some_iff.mp hsave
      obtain ⟨nodes', hnodes, hsave⟩ := Option.bind_eq_some_iff.mp hsave
      obtain rfl := Option.some.inj hsave
      obtain ⟨hname, hvar, hload⟩ := loadXml_saveXml data hplain.1 (fun a ha => by
        rw [List.mem_singleton.mp ha]) hnode
      rw [loadVars_cons hname hload, loadVars_saveVars vars hplain.2 hnodes, hvar, text_varTag]
      rfl

end

/-! ## What survives -/

def Sorted : DataType → Prop
  | leaf _ _ => True
  | struct _ vars => DataVars.Sorted vars

def Registered (names : HashManager) : DataType → Prop
  | leaf _ _ => True
  | struct name _ => names.strings name ≠ none

/-- What is loaded as it was: a value whose class is no name of a struct type and which is no
string with a zero byte, and a struct whose variables are found under their keys. -/
def KeptByXml (types : DataTypeManager) (names : HashManager) : DataType → Prop
  | leaf (.value type) value =>
      types.structs (hashArrayRepresentation type.attributeName) = none ∧ type.ZeroFree value
  | leaf _ _ => True
  | struct name vars =>
      (∃ info, names.strings name = some info ∧ hashArrayRepresentation info.data.cstr = name) ∧
      (∀ k ∈ SortedMap.keys types.classVars, k ∈ SortedMap.keys vars) ∧
      ∀ k ∈ SortedMap.keys vars, loadedKey k = k

theorem KeptByXml.registered {data : DataType} (h : data.KeptByXml types names) :
    data.Registered names := by
  cases data with
  | leaf type value => trivial
  | struct name vars =>
      obtain ⟨⟨info, hinfo, -⟩, -⟩ := h
      exact Option.ne_none_iff_exists'.mpr ⟨info, hinfo⟩

/-- The digits of no key are the name of another variable of the struct. -/
def Apart : DataType → Prop
  | leaf _ _ => True
  | struct _ vars => ∀ k ∈ SortedMap.keys vars, loadedKey k ∈ SortedMap.keys vars → loadedKey k = k

theorem exists_saveXml_iff (data : DataType) :
    ∀ tag, (∃ node, saveXml names xml data tag = some node) ↔ data.All (Registered names) := by
  induction data using induct with
  | hleaf type value => exact fun tag => iff_of_true ⟨_, rfl⟩ trivial
  | hstruct name vars ih =>
      have hvars : (∃ nodes, saveVars names xml vars = some nodes) ↔
          AllVars (Registered names) vars := by
        induction vars with
        | nil => exact iff_of_true ⟨_, rfl⟩ trivial
        | cons var vars ihvars =>
            obtain ⟨hashName, data⟩ := var
            have hdata := ih hashName data (List.mem_cons_self ..) (varTag hashName)
            have hrest := ihvars fun k d hmem => ih k d (List.mem_cons_of_mem _ hmem)
            rw [AllVars, ← hdata, ← hrest]
            constructor
            · rintro ⟨nodes, hsave⟩
              obtain ⟨node, hnode, hsave⟩ := Option.bind_eq_some_iff.mp hsave
              obtain ⟨nodes', hnodes, -⟩ := Option.bind_eq_some_iff.mp hsave
              exact ⟨⟨node, hnode⟩, nodes', hnodes⟩
            · rintro ⟨⟨node, hnode⟩, nodes, hnodes⟩
              refine ⟨node :: nodes, ?_⟩
              rw [saveVars, hnode, hnodes]
              rfl
      intro tag
      rw [All, ← hvars, Registered, Option.ne_none_iff_exists']
      constructor
      · rintro ⟨node, hsave⟩
        obtain ⟨info, hinfo, hsave⟩ := Option.bind_eq_some_iff.mp hsave
        obtain ⟨nodes, hnodes, -⟩ := Option.bind_eq_some_iff.mp hsave
        exact ⟨⟨info, hinfo⟩, nodes, hnodes⟩
      · rintro ⟨⟨info, hinfo⟩, nodes, hnodes⟩
        rw [saveXml, hinfo, hnodes]
        exact ⟨_, rfl⟩

theorem reload_eq_self {data : DataType} (hplain : data.All PlainType) (hsorted : data.All Sorted)
    (hkept : data.All (KeptByXml types names)) : reload types names data = data := by
  induction data using induct with
  | hleaf type value =>
      cases type with
      | value type =>
          refine (reload_value type value).trans ?_
          rw [hkept.1, Option.elim_none]
          exact congrArg (leaf (.value type)) (ValueType.cut_eq_self_iff.mpr hkept.2)
      | _ => exact absurd hplain id
  | hstruct name vars ih =>
      obtain ⟨⟨⟨info, hinfo, hname⟩, hclass, hkeys⟩, hkept⟩ := hkept
      rw [allVars_iff] at hkept
      have hvars : reloadVars types names vars = vars := by
        rw [reloadVars_eq]
        conv_rhs => rw [← List.map_id vars]
        refine List.map_congr_left fun var hvar => ?_
        obtain ⟨k, data⟩ := var
        have hdata := ih k data hvar (allVars_iff.mp hplain.2 k data hvar)
          (allVars_iff.mp hsorted.2 k data hvar) (hkept k data hvar)
        rw [hdata, hkeys k (SortedMap.mem_keys_of_mem hvar)]
        rfl
      have hrank : Function.Injective UInt64.toNat := fun _ _ => UInt64.toNat_inj.mp
      have hall : SortedMap.insertAll UInt64.toNat vars types.classVars = vars := by
        refine (types.sorted_classVars.insertAll hrank).ext hsorted.1 fun k data => ?_
        rw [SortedMap.mem_insertAll hrank hsorted.1.nodup_keys types.sorted_classVars]
        refine or_iff_left ?_
        rintro ⟨hk, hmem⟩
        exact hk (hclass k (SortedMap.mem_keys_of_mem hmem))
      rw [reload, hvars, hall, HashManager.hashToString, hinfo]
      exact congrArg (struct · vars) hname

theorem keptByXml_of_reload {data : DataType} (hplain : data.All PlainType)
    (hsorted : data.All Sorted) (hregistered : data.All (Registered names))
    (hapart : data.All Apart) (h : reload types names data = data) :
    data.All (KeptByXml types names) := by
  induction data using induct with
  | hleaf type value =>
      cases type with
      | value type =>
          have heq := (reload_value type value).symm.trans h
          cases hstructs : types.structs (hashArrayRepresentation type.attributeName) with
          | some vars =>
              rw [hstructs] at heq
              cases heq
          | none =>
              rw [hstructs] at heq
              obtain ⟨-, hcut⟩ := leaf.inj heq
              exact ⟨hstructs, ValueType.cut_eq_self_iff.mp (eq_of_heq hcut)⟩
      | _ => exact absurd hplain id
  | hstruct name vars ih =>
      rw [reload] at h
      obtain ⟨hname, hvars⟩ := struct.inj h
      have hrank : Function.Injective UInt64.toNat := fun _ _ => UInt64.toNat_inj.mp
      have hmem : ∀ k, k ∈ SortedMap.keys (reloadVars types names vars) ∨
          k ∈ SortedMap.keys types.classVars → k ∈ SortedMap.keys vars := by
        intro k hk
        rw [← hvars]
        exact SortedMap.mem_keys_insertAll.mpr hk
      have hkeys : ∀ k ∈ SortedMap.keys vars, loadedKey k = k := by
        intro k hk
        obtain ⟨var, hvar, rfl⟩ := List.mem_map.mp hk
        refine hapart.1 _ hk (hmem _ (Or.inl ?_))
        rw [reloadVars_eq]
        exact SortedMap.mem_keys_of_mem (List.mem_map_of_mem hvar)
      have hsame : SortedMap.keys (reloadVars types names vars) = SortedMap.keys vars := by
        rw [reloadVars_eq, SortedMap.keys, List.map_map]
        exact List.map_congr_left fun var hvar => hkeys var.1 (List.mem_map_of_mem hvar)
      obtain ⟨info, hinfo⟩ := Option.ne_none_iff_exists'.mp hregistered.1
      rw [HashManager.hashToString, hinfo] at hname
      refine ⟨⟨⟨info, hinfo, hname⟩, fun k hk => hmem k (Or.inr hk), hkeys⟩, ?_⟩
      rw [allVars_iff]
      intro k data hvar
      refine ih k data hvar (allVars_iff.mp hplain.2 k data hvar)
        (allVars_iff.mp hsorted.2 k data hvar) (allVars_iff.mp hregistered.2 k data hvar)
        (allVars_iff.mp hapart.2 k data hvar) ?_
      -- the variable is loaded under its own key, where the struct has it
      refine hsorted.1.eq_of_mem (k := k) ?_ hvar
      rw [← hvars, SortedMap.mem_insertAll hrank (hsame ▸ hsorted.1.nodup_keys)
        types.sorted_classVars]
      refine Or.inl ?_
      rw [reloadVars_eq, List.mem_map]
      refine ⟨(k, data), hvar, ?_⟩
      rw [hkeys k (SortedMap.mem_keys_of_mem hvar)]

/-- What is saved is loaded again. -/
def SurvivesXml (types : DataTypeManager) (names : HashManager) (xml : XmlConversions)
    (data : DataType) : Prop :=
  ∀ name, ∃ node, saveXml names xml data { name } = some node ∧
    loadXml types xml node = some (some data)

theorem survivesXml_iff {data : DataType} (hplain : data.All PlainType)
    (hsorted : data.All Sorted) :
    (data.All (KeptByXml types names) → data.SurvivesXml types names xml) ∧
      (data.All Apart → data.SurvivesXml types names xml → data.All (KeptByXml types names)) := by
  constructor
  · intro hkept name
    obtain ⟨node, hnode⟩ := (exists_saveXml_iff data { name }).mpr
      (hkept.mono fun _ => KeptByXml.registered)
    obtain ⟨-, -, hload⟩ := loadXml_saveXml data hplain (by simp) hnode
    rw [reload_eq_self hplain hsorted hkept] at hload
    exact ⟨node, hnode, hload⟩
  · intro hapart hsurvives
    obtain ⟨node, hnode, hload⟩ := hsurvives []
    obtain ⟨-, -, hload'⟩ := loadXml_saveXml data hplain (by simp) hnode
    have hreload := Option.some.inj (Option.some.inj (hload'.symm.trans hload))
    exact keptByXml_of_reload hplain hsorted ((exists_saveXml_iff data _).mp ⟨node, hnode⟩) hapart
      hreload

/-! ## A struct with a variable -/

theorem scanInt_intText_self (i : ℤ) : Text.scanInt (Text.intText i) = some i := by
  have h : Text.scanInt (Text.intText i ++ []) = some i := Text.scanInt_intText i (by simp)
  rwa [List.append_nil] at h

theorem scanInt_natText_self (n : ℕ) : Text.scanInt (Text.natText n) = some (n : ℤ) := by
  have h : Text.scanInt (Text.natText n ++ []) = some (n : ℤ) := Text.scanInt_natText n (by simp)
  rwa [List.append_nil] at h

/-- Decimal numbers are read up to the first byte that is no digit. -/
def decimalConversions : XmlConversions where
  asInt text := Int32.ofInt ((Text.scanInt text).getD 0)
  asUInt text := UInt32.ofNat ((Text.scanInt text).getD 0).toNat
  asLLong text := Int64.ofInt ((Text.scanInt text).getD 0)
  asULLong text := UInt64.ofNat ((Text.scanInt text).getD 0).toNat
  asBool text := text = Text.lit "true"
  asFloat _ := 0
  asDouble _ := 0
  floatText _ := []
  doubleText _ := []
  asInt_intText n := by
    rw [scanInt_intText_self, Option.getD_some, Int32.ofInt_toInt]
  asUInt_natText n := by
    rw [scanInt_natText_self, Option.getD_some, Int.toNat_natCast, UInt32.ofNat_toNat]
  asLLong_intText n := by
    rw [scanInt_intText_self, Option.getD_some, Int64.ofInt_toInt]
  asULLong_natText n := by
    rw [scanInt_natText_self, Option.getD_some, Int.toNat_natCast, UInt64.ofNat_toNat]
  asBool_true := by decide
  asBool_false := by decide

def noStructTypes : DataTypeManager where
  structs _ := none
  sorted := nofun

/-- A struct type and a variable have names. -/
def pointNames : HashManager :=
  let names := ({} : HashManager).withEntry (hashArrayRepresentation (Text.lit "Point"))
    (Text.lit "Point")
  names.withEntry (hashArrayRepresentation (Text.lit "x")) (Text.lit "x")

def point (vars : DataVars) : DataType := struct (hashArrayRepresentation (Text.lit "Point")) vars

theorem strings_pointNames : pointNames.strings (hashArrayRepresentation (Text.lit "Point")) =
    some ⟨Text.lit "Point", hashArrayRepresentation (Text.lit "Point"), 5⟩ := by
  have hne : hashArrayRepresentation (Text.lit "Point") ≠
      hashArrayRepresentation (Text.lit "x") := by decide +kernel
  unfold pointNames
  dsimp only [HashManager.withEntry]
  rw [Function.update_of_ne hne, Function.update_self]
  rfl

theorem survivesXml_point :
    (point []).SurvivesXml noStructTypes pointNames decimalConversions := by
  have hplain : (point []).All PlainType := ⟨trivial, trivial⟩
  have hsorted : (point []).All Sorted := ⟨List.Pairwise.nil, trivial⟩
  refine (survivesXml_iff hplain hsorted).1 ⟨⟨⟨_, strings_pointNames, ?_⟩, nofun, nofun⟩, trivial⟩
  exact congrArg hashArrayRepresentation (by decide)

theorem not_survivesXml_point :
    ¬ (point [(hashArrayRepresentation (Text.lit "x"), leaf (.value .bool) true)]).SurvivesXml
      noStructTypes pointNames decimalConversions := by
  intro hsurvives
  have hplain : (point [(hashArrayRepresentation (Text.lit "x"),
      leaf (.value .bool) true)]).All PlainType := ⟨trivial, ⟨nofun, nofun⟩, trivial⟩
  obtain ⟨node, hnode, hload⟩ := hsurvives []
  obtain ⟨-, -, hload'⟩ := loadXml_saveXml _ hplain (by simp) hnode
  have hreload := Option.some.inj (Option.some.inj (hload'.symm.trans hload))
  obtain ⟨-, hvars⟩ := struct.inj hreload
  have hkey : loadedKey (hashArrayRepresentation (Text.lit "x")) =
      hashArrayRepresentation (Text.lit "x") := (Prod.mk.inj (List.cons.inj hvars).1).1
  exact absurd hkey (by decide +kernel)

end DataType

end SRCommon
