import SRCommon.TypeTraits.Property

/-!
# Blocks of properties

The bytes that a property saves.
-/

namespace SRCommon

open LittleEndian MarshalUtils

/-- A short string behind its length. -/
def stringBytes (str : Text) : List UInt8 := toBytes 2 str.length ++ str

@[simp] theorem length_stringBytes (str : Text) : (stringBytes str).length = 2 + str.length := by
  rw [stringBytes, List.length_append, length_toBytes]

theorem countedBytes_eq_stringBytes {str : Text} (h : str.length < 65536) :
    countedBytes byteBytes str = stringBytes str := by
  have hbytes : str.flatMap byteBytes = str := by
    induction str with
    | nil => rfl
    | cons c str ih =>
        rw [List.flatMap_cons, ih (by rw [List.length_cons] at h; omega)]
        rfl
  rw [countedBytes, counted_of_lt h, Nat.mod_eq_of_lt h, hbytes, stringBytes]

namespace Marshal

variable {s chunk : Marshal} {bytes done rest : List UInt8} {str : Text}

theorem writeNumber_eq (t : CppType) (width n : ℕ) (h : Stream.Holds s done)
    (ht : t.isNumber = true) (hwidth : t.sizeOf .lp64 = width) (hn : n < t.range .lp64)
    (hroom : done.length + width < 2 ^ 63) :
    ∃ s', s.writeNumber t n = some s' ∧ Stream.Holds s' (done ++ toBytes width n) := by
  subst hwidth
  have hbytes : valueBytes (⟨n % t.range .lp64, Nat.mod_lt _ (t.range_pos .lp64)⟩ : t.Value .lp64) =
      toBytes (t.sizeOf .lp64) n := by
    rw [valueBytes, if_pos ht, CppType.bytes]
    exact congrArg (toBytes _) (Nat.mod_eq_of_lt hn)
  rw [← hbytes]
  refine saveValue_eq h _ ?_
  rwa [hbytes, List.length_append, length_toBytes]

theorem writeString_eq (h : Stream.Holds s done) (hstr : str.length < 32768)
    (hroom : done.length + (2 + str.length) < 2 ^ 63) :
    ∃ s', s.writeString str = some s' ∧ Stream.Holds s' (done ++ stringBytes str) := by
  have hbytes := countedBytes_eq_stringBytes (hstr.trans (by decide))
  rw [← hbytes]
  refine saveCounted_eq h length_byteBytes (by decide) ?_ ?_
  · rwa [Nat.mod_eq_of_lt (hstr.trans (by decide))]
  · rwa [hbytes, List.length_append, length_stringBytes]

theorem append_holds (h : Stream.Holds s done) (hchunk : Stream.Holds chunk bytes)
    (hroom : done.length + bytes.length < 2 ^ 63) :
    ∃ s', s.append chunk = some s' ∧ Stream.Holds s' (done ++ bytes) := by
  rcases eq_or_ne bytes [] with rfl | hne
  · have hzero : ¬chunk.size > 0 := by
      rw [gt_iff_lt, UInt64.lt_iff_toNat_lt, hchunk.size_eq]
      exact Nat.lt_irrefl 0
    refine ⟨s, ?_, by rwa [List.append_nil]⟩
    rw [append, if_neg fun hboth => hzero hboth.2]
  · exact append_eq h ⟨_, hchunk, rfl⟩ hne hroom

theorem readNumber_eq (t : CppType) (width n : ℕ)
    (h : Stream.Ahead s (toBytes width n ++ rest)) (ht : t.isNumber = true)
    (hwidth : t.sizeOf .lp64 = width) (hn : n < t.range .lp64) :
    ∃ s', s.readNumber t = some (n, s') ∧ Stream.Ahead s' rest := by
  subst hwidth
  obtain ⟨s', hs', hahead⟩ := loadValue_eq ht (⟨n, hn⟩ : t.Value .lp64) h
  refine ⟨s', ?_, hahead⟩
  rw [readNumber, hs']
  rfl

theorem readString_eq (h : Stream.Ahead s (stringBytes str ++ rest))
    (hstr : str.length < uint16Max) :
    ∃ s', s.readString = some (str, s') ∧ Stream.Ahead s' rest := by
  have hlt : str.length < 65536 := hstr.trans (by decide)
  rw [← countedBytes_eq_stringBytes hlt, countedBytes, counted_of_lt hlt, Nat.mod_eq_of_lt hlt] at h
  exact loadCounted_eq length_byteBytes decodeByte_byteBytes (by decide) (by decide) hstr hlt h

end Marshal

/-! ## What is saved -/

namespace StandardValue

/-- The bytes behind the name of the type. -/
def bytes : StandardValue → Option (List UInt8)
  | bool value => some (toBytes 1 value.toNat)
  | int16 value => some (toBytes 4 value.toInt32.toUInt32.toNat)
  | uint16 value => some (toBytes 4 value.toNat)
  | int32 value => some (toBytes 4 value.toUInt32.toNat)
  | uint32 value => some (toBytes 4 value.toNat)
  | string value | stringAtom value => some (stringBytes value)
  | int8 _ | uint8 _ | int64 _ | uint64 _ => none

def Short : StandardValue → Prop
  | string value | stringAtom value => value.length < 32768
  | _ => True

end StandardValue

namespace PropertyBase

def bytes (typeName : StringAtom) (block : List UInt8) : List UInt8 :=
  toBytes 2 version ++ (stringBytes typeName ++ (toBytes 4 block.length ++ block))

@[simp] theorem length_bytes (typeName : StringAtom) (block : List UInt8) :
    (bytes typeName block).length = 8 + typeName.length + block.length := by
  simp only [bytes, List.length_append, length_toBytes, length_stringBytes]
  omega

end PropertyBase

namespace Property

/-- What holds of the parts of a property holds of the property. -/
theorem induct {P : Property → Prop} (hstandard : ∀ base value, P (standard base value))
    (hpath : ∀ base value, P (path base value)) (henum : ∀ base value, P (enum base value))
    (hexternal : ∀ base property, (∀ p ∈ property, P p) → P (external base property))
    (hcontainer : ∀ base properties, (∀ p ∈ properties, P p) → P (container base properties))
    (p : Property) : P p :=
  @Property.rec P (fun property => ∀ p ∈ property, P p) (fun properties => ∀ p ∈ properties, P p)
    hstandard hpath henum hexternal hcontainer (fun _ h => by cases h)
    (fun _ hp _ h => Option.mem_some_iff.mp h ▸ hp) (fun _ h => by cases h)
    (fun _ _ hp hps => List.forall_mem_cons.mpr ⟨hp, hps⟩) p

mutual

def saved : Property → List UInt8
  | standard base value =>
      if base.isSaved then
        value.bytes.elim [] fun bytes =>
          PropertyBase.bytes (Text.lit "StandardProperty")
            (stringBytes value.type.toStringAtom ++ bytes)
      else []
  | path base value =>
      if base.isSaved then
        PropertyBase.bytes (Text.lit "PathProperty") (stringBytes value.text)
      else []
  | enum base value =>
      if base.isSaved then PropertyBase.bytes (Text.lit "EnumProperty") (stringBytes value) else []
  | external base none =>
      if base.isSaved then
        toBytes 4 0 ++ PropertyBase.bytes (Text.lit "ExternalProperty") []
      else []
  | external base (some pExternal) =>
      if base.isSaved then
        toBytes 4 (saved pExternal).length ++
          (saved pExternal ++ PropertyBase.bytes (Text.lit "ExternalProperty") [])
      else []
  | container base properties =>
      if base.isSaved then
        PropertyBase.bytes (Text.lit "PropertyContainer")
          (toBytes 2 (properties.countP isSaved) ++ savedAll properties)
      else []

def savedAll : List Property → List UInt8
  | [] => []
  | p :: properties =>
      if p.isSaved then
        stringBytes p.name ++ (toBytes 4 (saved p).length ++ (saved p ++ savedAll properties))
      else savedAll properties

end

mutual

/-- Strings are shorter than `2 ^ 15` bytes, containers have less than `2 ^ 16` properties. -/
def Short : Property → Prop
  | standard _ value => value.Short
  | path _ value => value.text.length < 32768
  | enum _ value => value.length < 32768
  | external _ none => True
  | external _ (some pExternal) => Short pExternal
  | container _ properties => properties.length < 65536 ∧ ShortAll properties

def ShortAll : List Property → Prop
  | [] => True
  | p :: properties => (p.name.length < 32768 ∧ Short p) ∧ ShortAll properties

end

theorem shortAll_iff {properties : List Property} :
    ShortAll properties ↔ ∀ p ∈ properties, p.name.length < 32768 ∧ p.Short := by
  induction properties with
  | nil => simp [ShortAll]
  | cons p properties ih => rw [ShortAll, ih, List.forall_mem_cons]

end Property

/-! ## What the marshal holds -/

namespace StandardValue

theorem length_toStringAtom (type : StandardPropertyType) : type.toStringAtom.length < 16 := by
  cases type <;> decide

theorem write_eq_none {value : StandardValue} (h : value.bytes = none) (pBlock : Marshal) :
    value.write pBlock = none := by
  cases value <;> first | rfl | cases h

theorem write_eq {value : StandardValue} {pBlock : Marshal} {done bytes : List UInt8}
    (hvalue : value.bytes = some bytes) (hshort : value.Short) (h : Stream.Holds pBlock done)
    (hroom : done.length + bytes.length < 2 ^ 63) :
    ∃ pBlock', value.write pBlock = some (some pBlock') ∧
      Stream.Holds pBlock' (done ++ bytes) := by
  have hnumber : ∀ (t : CppType) (width n : ℕ), t.isNumber = true → t.sizeOf .lp64 = width →
      n < t.range .lp64 → bytes = toBytes width n →
      ∃ pBlock', some (pBlock.writeNumber t n) = some (some pBlock') ∧
        Stream.Holds pBlock' (done ++ bytes) := by
    rintro t width n ht hwidth hn rfl
    rw [length_toBytes] at hroom
    obtain ⟨pBlock', hwritten, hholds⟩ := Marshal.writeNumber_eq t width n h ht hwidth hn hroom
    exact ⟨pBlock', congrArg some hwritten, hholds⟩
  have hstring : ∀ str : Text, str.length < 32768 → bytes = stringBytes str →
      ∃ pBlock', some (pBlock.writeString str) = some (some pBlock') ∧
        Stream.Holds pBlock' (done ++ bytes) := by
    rintro str hstr rfl
    rw [length_stringBytes] at hroom
    obtain ⟨pBlock', hwritten, hholds⟩ := Marshal.writeString_eq h hstr hroom
    exact ⟨pBlock', congrArg some hwritten, hholds⟩
  cases value with
  | int8 | uint8 | int64 | uint64 => cases hvalue
  | bool value =>
      exact hnumber .bool 1 _ rfl rfl (by cases value <;> decide) (Option.some.inj hvalue).symm
  | int16 value =>
      exact hnumber .int 4 _ rfl rfl value.toInt32.toUInt32.toNat_lt (Option.some.inj hvalue).symm
  | uint16 value =>
      exact hnumber .unsignedInt 4 _ rfl rfl (value.toNat_lt.trans (by decide))
        (Option.some.inj hvalue).symm
  | int32 value =>
      exact hnumber .int 4 _ rfl rfl value.toUInt32.toNat_lt (Option.some.inj hvalue).symm
  | uint32 value =>
      exact hnumber .unsignedInt 4 _ rfl rfl value.toNat_lt (Option.some.inj hvalue).symm
  | string value | stringAtom value => exact hstring _ hshort (Option.some.inj hvalue).symm

end StandardValue

theorem PropertyBase.savePropertyBase_eq {base : PropertyBase} (typeName : StringAtom)
    {marshal pBlock : Marshal} {done block : List UInt8} (hbase : base.isSaved = true)
    (htype : typeName.length < 32768) (h : Stream.Holds marshal done)
    (hblock : Stream.Holds pBlock block) (hsize : block.length < 2 ^ 32)
    (hroom : done.length + (bytes typeName block).length < 2 ^ 63) :
    ∃ marshal', base.savePropertyBase typeName marshal pBlock = some marshal' ∧
      Stream.Holds marshal' (done ++ bytes typeName block) := by
  have hsave : base.dontSave = false := by
    rw [isSaved, Bool.and_eq_true, Bool.not_eq_true'] at hbase
    exact hbase.1
  have hcount : pBlock.size.toNat = block.length := hblock.size_eq
  rw [length_bytes] at hroom
  obtain ⟨s₁, hs₁, h₁⟩ := Marshal.writeNumber_eq .unsignedShort 2 version h rfl rfl
    (by decide) (by omega)
  obtain ⟨s₂, hs₂, h₂⟩ := Marshal.writeString_eq h₁ htype (by
    rw [List.length_append, length_toBytes]
    omega)
  obtain ⟨s₃, hs₃, h₃⟩ := Marshal.writeNumber_eq .unsignedInt 4 block.length h₂ rfl rfl
    hsize (by
      simp only [List.length_append, length_toBytes, length_stringBytes]
      omega)
  obtain ⟨s₄, hs₄, h₄⟩ := Marshal.append_holds h₃ hblock (by
    simp only [List.length_append, length_toBytes, length_stringBytes]
    omega)
  refine ⟨s₄, ?_, ?_⟩
  · rw [savePropertyBase, hsave, if_neg Bool.false_ne_true, hs₁]
    simp only [Option.bind_eq_bind, Option.bind_some]
    rw [hs₂, Option.bind_some, hcount, hs₃, Option.bind_some, hs₄]
  · rw [List.append_assoc, List.append_assoc, List.append_assoc] at h₄
    exact h₄

/-- A block that is one string. -/
theorem PropertyBase.saveString_eq {base : PropertyBase} {typeName : StringAtom} {str : Text}
    {marshal : Marshal} {done : List UInt8} (hbase : base.isSaved = true)
    (htype : typeName.length < 32768) (hstr : str.length < 32768) (h : Stream.Holds marshal done)
    (hroom : done.length + (bytes typeName (stringBytes str)).length < 2 ^ 63) :
    ∃ marshal', (Marshal.writeString Stream.empty str).bind
        (base.savePropertyBase typeName marshal) = some marshal' ∧
      Stream.Holds marshal' (done ++ bytes typeName (stringBytes str)) := by
  obtain ⟨pBlock, hpBlock, hblock⟩ := Marshal.writeString_eq Stream.holds_empty hstr (by
    rw [List.length_nil]
    omega)
  rw [hpBlock]
  refine savePropertyBase_eq _ hbase htype h hblock ?_ hroom
  rw [length_stringBytes]
  omega

namespace Property

/-- The property appends its bytes to what is there. -/
def Saves (p : Property) : Prop :=
  ∀ marshal done, Stream.Holds marshal done → done.length + p.saved.length < 2 ^ 63 →
    ∃ marshal', p.saveProperty marshal = some marshal' ∧ Stream.Holds marshal' (done ++ p.saved)

def externalBytes (property : Option Property) : List UInt8 := property.elim [] saved

theorem saved_external (base : PropertyBase) (property : Option Property) :
    saved (external base property) =
      if base.isSaved then
        toBytes 4 (externalBytes property).length ++
          (externalBytes property ++ PropertyBase.bytes (Text.lit "ExternalProperty") [])
      else [] := by
  cases property <;> rw [saved] <;> rfl

theorem saveProperty_external (base : PropertyBase) (property : Option Property)
    (marshal : Marshal) :
    (external base property).saveProperty marshal =
      if base.isSaved then
        (property.elim (some Stream.empty) fun p => p.saveProperty Stream.empty).bind
          fun externalBlock => (marshal.writeNumber .unsignedInt externalBlock.size.toNat).bind
            fun marshal => (marshal.append externalBlock).bind fun marshal =>
              base.savePropertyBase (Text.lit "ExternalProperty") marshal Stream.empty
      else some marshal := by
  cases property <;> rw [saveProperty] <;> rfl

theorem saved_of_unsaved {p : Property} (h : ¬p.isSaved = true) : p.saved = [] := by
  cases p with
  | external base property => exact (saved_external base property).trans (if_neg h)
  | _ => exact if_neg h

theorem saves_of_isSaved {p : Property} (h : p.isSaved = true → p.Saves) : p.Saves := by
  by_cases hp : p.isSaved = true
  · exact h hp
  · intro marshal done hholds _
    refine ⟨marshal, ?_, ?_⟩
    · cases p with
      | external base property => exact (saveProperty_external ..).trans (if_neg hp)
      | _ =>
          rw [saveProperty]
          exact if_neg hp
    · rwa [saved_of_unsaved hp, List.append_nil]

theorem saves_standard {base : PropertyBase} {value : StandardValue} (hshort : value.Short)
    (hroom : (saved (standard base value)).length < 2 ^ 32) : (standard base value).Saves := by
  refine saves_of_isSaved fun hbase marshal done h hdone => ?_
  have hbase : base.isSaved = true := hbase
  rw [saved, if_pos hbase] at hroom hdone ⊢
  have htype := StandardValue.length_toStringAtom value.type
  obtain ⟨s₁, hs₁, h₁⟩ := Marshal.writeString_eq Stream.holds_empty
    (htype.trans (by decide)) (by rw [List.length_nil]; omega)
  rw [saveProperty, if_pos hbase, hs₁]
  simp only [Option.bind_eq_bind, Option.bind_some]
  cases hvalue : value.bytes with
  | none =>
      rw [StandardValue.write_eq_none hvalue]
      exact ⟨marshal, rfl, by simpa using h⟩
  | some bytes =>
      rw [hvalue, Option.elim_some] at hroom hdone
      simp only [PropertyBase.length_bytes, List.length_append, length_stringBytes] at hroom
      obtain ⟨s₂, hs₂, h₂⟩ := StandardValue.write_eq hvalue hshort h₁ (by
        rw [List.nil_append, length_stringBytes]
        omega)
      rw [hs₂]
      refine PropertyBase.savePropertyBase_eq _ hbase (by decide) h h₂ ?_ hdone
      simp only [List.length_append, length_stringBytes]
      omega

theorem saves_path {base : PropertyBase} {value : Path} (hshort : value.text.length < 32768) :
    (path base value).Saves := by
  refine saves_of_isSaved fun hbase marshal done h hdone => ?_
  have hbase : base.isSaved = true := hbase
  rw [saved, if_pos hbase] at hdone ⊢
  rw [saveProperty, if_pos hbase]
  exact PropertyBase.saveString_eq hbase (by decide) hshort h hdone

theorem saves_enum {base : PropertyBase} {value : StringAtom} (hshort : value.length < 32768) :
    (enum base value).Saves := by
  refine saves_of_isSaved fun hbase marshal done h hdone => ?_
  have hbase : base.isSaved = true := hbase
  rw [saved, if_pos hbase] at hdone ⊢
  rw [saveProperty, if_pos hbase]
  exact PropertyBase.saveString_eq hbase (by decide) hshort h hdone

/-- The external block stands in front of the block of the property. -/
theorem saves_external {base : PropertyBase} {property : Option Property}
    (hsaves : ∀ p ∈ property, p.Saves)
    (hroom : (saved (external base property)).length < 2 ^ 32) :
    (external base property).Saves := by
  refine saves_of_isSaved fun hbase marshal done h hdone => ?_
  have hbase : base.isSaved = true := hbase
  rw [saved_external, if_pos hbase] at hroom hdone ⊢
  simp only [List.length_append, length_toBytes] at hroom hdone
  obtain ⟨externalBlock, hblock, hholds⟩ : ∃ externalBlock,
      (property.elim (some Stream.empty) fun p => p.saveProperty Stream.empty) =
        some externalBlock ∧ Stream.Holds externalBlock (externalBytes property) := by
    cases property with
    | none => exact ⟨Stream.empty, rfl, Stream.holds_empty⟩
    | some p =>
        refine hsaves p rfl _ _ Stream.holds_empty ?_
        change 0 + (externalBytes (some p)).length < 2 ^ 63
        omega
  have hcount : externalBlock.size.toNat = (externalBytes property).length := hholds.size_eq
  obtain ⟨s₁, hs₁, h₁⟩ := Marshal.writeNumber_eq .unsignedInt 4 (externalBytes property).length h
    rfl rfl (show _ < 2 ^ 32 by omega) (by omega)
  obtain ⟨s₂, hs₂, h₂⟩ := Marshal.append_holds h₁ hholds (by
    rw [List.length_append, length_toBytes]
    omega)
  obtain ⟨s₃, hs₃, h₃⟩ := PropertyBase.savePropertyBase_eq (Text.lit "ExternalProperty")
    hbase (by decide) h₂ Stream.holds_empty (by decide) (by
      simp only [List.length_append, length_toBytes]
      omega)
  refine ⟨s₃, ?_, ?_⟩
  · rw [saveProperty_external, if_pos hbase, hblock, Option.bind_some, hcount, hs₁,
      Option.bind_some, hs₂, Option.bind_some, hs₃]
  · rwa [List.append_assoc, List.append_assoc] at h₃

/-- The loop of a container. -/
theorem saveProperties_eq (count : UInt16) {properties : List Property} {marshal : Marshal}
    {done : List UInt8} (hsaves : ∀ p ∈ properties, (saved p).length < 2 ^ 32 → p.Saves)
    (hshort : ShortAll properties) (h : Stream.Holds marshal done)
    (hroom : (savedAll properties).length < 2 ^ 32)
    (hdone : done.length + (savedAll properties).length < 2 ^ 63) :
    ∃ marshal', saveProperties properties count marshal =
        some (count + UInt16.ofNat (properties.countP isSaved), marshal') ∧
      Stream.Holds marshal' (done ++ savedAll properties) := by
  induction properties generalizing count marshal done with
  | nil =>
      refine ⟨marshal, ?_, by rwa [savedAll, List.append_nil]⟩
      rw [saveProperties, List.countP_nil]
      simp
  | cons p properties ih =>
      obtain ⟨hp, hproperties⟩ := List.forall_mem_cons.mp hsaves
      obtain ⟨⟨hname, -⟩, hshort⟩ := hshort
      rw [savedAll] at hroom hdone ⊢
      rw [saveProperties]
      by_cases hsaved : p.isSaved = true
      · rw [if_pos hsaved] at hroom hdone
        rw [if_pos hsaved, if_pos hsaved]
        simp only [List.length_append, length_toBytes, length_stringBytes] at hroom hdone
        obtain ⟨chunk, hchunk, hholds⟩ := hp (by omega) _ _ Stream.holds_empty (by
          rw [List.length_nil]
          omega)
        rw [List.nil_append] at hholds
        have hcount : chunk.size.toNat = (saved p).length := hholds.size_eq
        obtain ⟨s₁, hs₁, h₁⟩ := Marshal.writeString_eq h hname (by omega)
        obtain ⟨s₂, hs₂, h₂⟩ := Marshal.writeNumber_eq .unsignedInt 4 (saved p).length h₁
          rfl rfl (show _ < 2 ^ 32 by omega) (by
            simp only [List.length_append, length_stringBytes]
            omega)
        obtain ⟨s₃, hs₃, h₃⟩ := Marshal.append_holds h₂ hholds (by
          simp only [List.length_append, length_toBytes, length_stringBytes]
          omega)
        obtain ⟨s₄, hs₄, h₄⟩ := ih (count + 1) hproperties hshort h₃ (by omega) (by
          simp only [List.length_append, length_toBytes, length_stringBytes]
          omega)
        refine ⟨s₄, ?_, ?_⟩
        · rw [hchunk]
          simp only [Option.bind_eq_bind, Option.bind_some]
          rw [hs₁, Option.bind_some, hcount, hs₂, Option.bind_some, hs₃, Option.bind_some, hs₄,
            List.countP_cons_of_pos hsaved, UInt16.ofNat_add, UInt16.add_assoc,
            UInt16.add_comm 1]
          rfl
        · simpa only [List.append_assoc] using h₄
      · rw [if_neg hsaved] at hroom hdone
        rw [if_neg hsaved, if_neg hsaved, List.countP_cons_of_neg hsaved]
        exact ih count hproperties hshort h hroom hdone

theorem saves_container {base : PropertyBase} {properties : List Property}
    (hsaves : ∀ p ∈ properties, (saved p).length < 2 ^ 32 → p.Saves)
    (hlength : properties.length < 65536) (hshort : ShortAll properties)
    (hroom : (saved (container base properties)).length < 2 ^ 32) :
    (container base properties).Saves := by
  refine saves_of_isSaved fun hbase marshal done h hdone => ?_
  have hbase : base.isSaved = true := hbase
  rw [saved, if_pos hbase] at hroom hdone ⊢
  simp only [PropertyBase.length_bytes, List.length_append, length_toBytes] at hroom
  obtain ⟨s₁, hs₁, h₁⟩ := saveProperties_eq 0 hsaves hshort Stream.holds_empty
    (by omega) (by rw [List.length_nil]; omega)
  rw [List.nil_append] at h₁
  have hcount : (0 + UInt16.ofNat (properties.countP isSaved)).toNat =
      properties.countP isSaved := by
    rw [UInt16.zero_add]
    exact UInt16.toNat_ofNat_of_lt' (List.countP_le_length.trans_lt hlength)
  obtain ⟨s₂, hs₂, h₂⟩ := Marshal.writeNumber_eq .unsignedShort 2 (properties.countP isSaved)
    Stream.holds_empty rfl rfl (List.countP_le_length.trans_lt hlength) (by decide)
  rw [List.nil_append] at h₂
  obtain ⟨s₃, hs₃, h₃⟩ := Marshal.append_holds h₂ h₁ (by
    rw [length_toBytes]
    omega)
  obtain ⟨s₄, hs₄, h₄⟩ := PropertyBase.savePropertyBase_eq
    (Text.lit "PropertyContainer") hbase (by decide) h h₃ (by
      rw [List.length_append, length_toBytes]
      omega) hdone
  refine ⟨s₄, ?_, h₄⟩
  rw [saveProperty, if_pos hbase, hs₁]
  simp only [Option.bind_eq_bind, Option.bind_some]
  rw [hcount, hs₂, Option.bind_some, hs₃, Option.bind_some, hs₄]

/-- Properties save their bytes. -/
theorem saves {p : Property} (hshort : p.Short) (hroom : p.saved.length < 2 ^ 32) : p.Saves := by
  induction p using induct with
  | hstandard base value => exact saves_standard hshort hroom
  | hpath base value => exact saves_path hshort
  | henum base value => exact saves_enum hshort
  | hexternal base property ih =>
      refine saves_of_isSaved fun hsaved => saves_external (fun p hp => ?_) hroom
      have hbase : base.isSaved = true := hsaved
      obtain rfl : property = some p := hp
      rw [saved_external, if_pos hbase, externalBytes, Option.elim_some] at hroom
      simp only [List.length_append] at hroom
      exact ih p rfl hshort (by omega)
  | hcontainer base properties ih =>
      refine saves_container (fun p hp hlength => ih p hp ?_ hlength) hshort.1 hshort.2 hroom
      exact (shortAll_iff.mp hshort.2 p hp).2

end Property

end SRCommon
