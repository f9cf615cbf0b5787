import Mathlib.Data.List.Nodup
import SRCommon.Common.Hashes

/-!
# Values of logical nodes

A value has no parts, or is a struct with values under the hashes of their
names. An array has neither elements nor another element type than `None`:
nothing in the code adds any.
-/

namespace SRCommon

inductive DataTypeClass where
  | none
  | flow
  | enum
  | struct
  | array
  | map
  | set
  | bool
  | float
  | double
  | string
  | int8
  | int16
  | int32
  | int64
  | uint8
  | uint16
  | uint32
  | uint64
  deriving DecidableEq

namespace DataTypeClass

def all : List DataTypeClass :=
  [none, flow, enum, struct, array, map, set, bool, float, double, string, int8, int16, int32,
    int64, uint8, uint16, uint32, uint64]

/-- `EnumReflector::ToStringAtom`. -/
def toStringAtom : DataTypeClass → Text
  | none => Text.lit "None"
  | flow => Text.lit "Flow"
  | enum => Text.lit "Enum"
  | struct => Text.lit "Struct"
  | array => Text.lit "Array"
  | map => Text.lit "Map"
  | set => Text.lit "Set"
  | bool => Text.lit "Bool"
  | float => Text.lit "Float"
  | double => Text.lit "Double"
  | string => Text.lit "String"
  | int8 => Text.lit "Int8"
  | int16 => Text.lit "Int16"
  | int32 => Text.lit "Int32"
  | int64 => Text.lit "Int64"
  | uint8 => Text.lit "UInt8"
  | uint16 => Text.lit "UInt16"
  | uint32 => Text.lit "UInt32"
  | uint64 => Text.lit "UInt64"

/-- `EnumReflector::FromString`, which gives the first value for what is no name. -/
def fromString (value : Text) : DataTypeClass :=
  (all.find? fun c => c.toStringAtom = value).getD none

theorem fromString_toStringAtom (c : DataTypeClass) : fromString c.toStringAtom = c := by
  cases c <;> decide

end DataTypeClass

/-- The types of `m_value`. A floating number is known by its bits. -/
inductive ValueType where
  | bool
  | float
  | double
  | string
  | int8
  | int16
  | int32
  | int64
  | uint8
  | uint16
  | uint32
  | uint64
  deriving DecidableEq

namespace ValueType

def Value : ValueType → Type
  | bool => Bool
  | float => UInt32
  | double => UInt64
  | string => Text
  | int8 => Int8
  | int16 => Int16
  | int32 => Int32
  | int64 => Int64
  | uint8 => UInt8
  | uint16 => UInt16
  | uint32 => UInt32
  | uint64 => UInt64

def getClass : ValueType → DataTypeClass
  | bool => .bool
  | float => .float
  | double => .double
  | string => .string
  | int8 => .int8
  | int16 => .int16
  | int32 => .int32
  | int64 => .int64
  | uint8 => .uint8
  | uint16 => .uint16
  | uint32 => .uint32
  | uint64 => .uint64

/-- A value where one of another type is read has no meaning. -/
def cast (type type' : ValueType) (value : type.Value) : Option type'.Value :=
  if h : type = type' then some (h ▸ value) else .none

theorem cast_self (type : ValueType) (value : type.Value) : type.cast type value = some value := by
  rw [cast, dif_pos rfl]

end ValueType

/-- The types without parts. An enumeration is known by the name of its reflector. -/
inductive LeafType where
  | none
  | flow
  | array
  | enum (reflector : Option Text)
  | value (type : ValueType)
  deriving DecidableEq

namespace LeafType

def Value : LeafType → Type
  | none => Unit
  | flow => Int64
  | array => Unit
  | enum _ => Int64
  | value type => type.Value

def getClass : LeafType → DataTypeClass
  | none => .none
  | flow => .flow
  | array => .array
  | enum _ => .enum
  | value type => type.getClass

def getName : LeafType → Text
  | enum reflector => reflector.getD DataTypeClass.enum.toStringAtom
  | type => type.getClass.toStringAtom

end LeafType

inductive DataType where
  | leaf (type : LeafType) (value : type.Value)
  | struct (name : UInt64) (vars : List (UInt64 × DataType))

namespace DataType

theorem induct {P : DataType → Prop} (hleaf : ∀ type value, P (leaf type value))
    (hstruct : ∀ name vars, (∀ hashName data, (hashName, data) ∈ vars → P data) →
      P (struct name vars)) : ∀ data, P data
  | leaf type value => hleaf type value
  | struct name vars => hstruct name vars (inductVars vars)
where
  inductVars : ∀ vars : List (UInt64 × DataType), ∀ hashName data, (hashName, data) ∈ vars → P data
    | (_, first) :: vars, hashName, data, h =>
        (List.mem_cons.mp h).elim (fun heq => (Prod.mk.inj heq).2 ▸ induct hleaf hstruct first)
          (inductVars vars hashName data)

mutual

/-- A property of a value and of everything in it. -/
def All (P : DataType → Prop) : DataType → Prop
  | leaf type value => P (leaf type value)
  | struct name vars => P (struct name vars) ∧ AllVars P vars

def AllVars (P : DataType → Prop) : List (UInt64 × DataType) → Prop
  | [] => True
  | (_, data) :: vars => data.All P ∧ AllVars P vars

end

theorem allVars_iff {P : DataType → Prop} {vars : List (UInt64 × DataType)} :
    AllVars P vars ↔ ∀ hashName data, (hashName, data) ∈ vars → data.All P := by
  induction vars with
  | nil => simp [AllVars]
  | cons var vars ih =>
      obtain ⟨hashName, data⟩ := var
      rw [AllVars, ih]
      constructor
      · rintro ⟨hdata, hvars⟩ k d hmem
        rcases List.mem_cons.mp hmem with heq | hmem
        · rw [(Prod.mk.inj heq).2]
          exact hdata
        · exact hvars k d hmem
      · exact fun h => ⟨h hashName data (List.mem_cons_self ..),
          fun k d hmem => h k d (List.mem_cons_of_mem _ hmem)⟩

theorem All.mono {P Q : DataType → Prop} (hPQ : ∀ data, P data → Q data) {data : DataType}
    (h : data.All P) : data.All Q := by
  induction data using DataType.induct with
  | hleaf type value => exact hPQ _ h
  | hstruct name vars ih =>
      refine ⟨hPQ _ h.1, allVars_iff.mpr fun k data hmem => ?_⟩
      exact ih k data hmem (allVars_iff.mp h.2 k data hmem)

def getClass : DataType → DataTypeClass
  | leaf type _ => type.getClass
  | struct _ _ => .struct

def getName : DataType → Text
  | leaf type _ => type.getName
  | struct _ _ => DataTypeClass.struct.toStringAtom

def getHashName (this : DataType) : UInt64 := hashArrayRepresentation this.getName

mutual

def getMeta : DataType → UInt64
  | leaf .array _ =>
      combineTwoHashes (hashArrayRepresentation DataTypeClass.array.toStringAtom)
        (hashArrayRepresentation DataTypeClass.none.toStringAtom)
  | leaf type _ => hashArrayRepresentation type.getName
  | struct _ vars => metaOfVars (hashArrayRepresentation DataTypeClass.struct.toStringAtom) vars

def metaOfVars (hash : UInt64) : List (UInt64 × DataType) → UInt64
  | [] => hash
  | (_, data) :: vars => metaOfVars (combineTwoHashes hash data.getMeta) vars

end

/-- `SetCustomValue` with a value of a type. A type that holds no value is left as it is, and one
that holds a value of another type has no result. -/
def setCustomValue (this : DataType) (type : ValueType) (value : type.Value) : Option DataType :=
  match this with
  | leaf .none _ => some this
  | leaf .array _ => some this
  | leaf .flow _ => (type.cast .int64 value).map (leaf .flow)
  | leaf (.enum reflector) _ => (type.cast .int64 value).map (leaf (.enum reflector))
  | leaf (.value type') _ => (type.cast type' value).map (leaf (.value type'))
  | struct _ _ => some this

end DataType

/-! ## Types and copies -/

/-- The type of a value, down to the variables of structs. -/
inductive DataShape where
  | leaf (type : LeafType)
  | struct (name : UInt64) (vars : List (UInt64 × DataShape))

namespace DataShape

mutual

/-- The variables of a struct are kept in a map. -/
def Unique : DataShape → Prop
  | leaf _ => True
  | struct _ vars => (vars.map Prod.fst).Nodup ∧ UniqueVars vars

def UniqueVars : List (UInt64 × DataShape) → Prop
  | [] => True
  | (_, shape) :: vars => shape.Unique ∧ UniqueVars vars

end

end DataShape

/-- `variables[hashName]->…`, for a name that is there. -/
def assignVar (hashName : UInt64) (pData : DataType) (vars : List (UInt64 × DataType)) :
    List (UInt64 × DataType) :=
  vars.map fun var => if var.1 = hashName then (hashName, pData) else var

namespace DataType

mutual

def shape : DataType → DataShape
  | leaf type _ => .leaf type
  | struct name vars => .struct name (shapeVars vars)

def shapeVars : List (UInt64 × DataType) → List (UInt64 × DataShape)
  | [] => []
  | (hashName, pData) :: vars => (hashName, pData.shape) :: shapeVars vars

end

mutual

/-- What `CopyTo` makes of its argument. A variable that is not there throws. -/
def copyTo : DataType → DataType → Option DataType
  | leaf .none _, pData => some pData
  | leaf .array _, pData => some pData
  | leaf .flow value, pData => pData.setCustomValue .int64 value
  | leaf (.enum _) value, pData => pData.setCustomValue .int64 value
  | leaf (.value type) value, pData => pData.setCustomValue type value
  | struct _ vars, struct name vars' => (copyVars vars vars').map (struct name)
  | struct _ _, pData => some pData

def copyVars : List (UInt64 × DataType) → List (UInt64 × DataType) →
    Option (List (UInt64 × DataType))
  | [], vars' => some vars'
  | (hashName, pVar) :: vars, vars' => do
      let old ← vars'.lookup hashName
      let new ← pVar.copyTo old
      copyVars vars (assignVar hashName new vars')

end

end DataType

namespace DataType

theorem shapeVars_eq_map (vars : List (UInt64 × DataType)) :
    shapeVars vars = vars.map fun var => (var.1, var.2.shape) := by
  induction vars with
  | nil => rfl
  | cons var vars ih => rw [shapeVars, ih, List.map_cons]

theorem getElem?_shapeVars (vars : List (UInt64 × DataType)) (i : ℕ) :
    (shapeVars vars)[i]? = vars[i]?.map fun var => (var.1, var.2.shape) := by
  rw [shapeVars_eq_map, List.getElem?_map]

theorem map_fst_shapeVars (vars : List (UInt64 × DataType)) :
    (shapeVars vars).map Prod.fst = vars.map Prod.fst := by
  rw [shapeVars_eq_map, List.map_map]
  rfl

theorem getClass_of_shape {a b : DataType} (h : a.shape = b.shape) : a.getClass = b.getClass := by
  cases a with
  | leaf type value =>
      cases b with
      | leaf type' value' => exact congrArg LeafType.getClass (DataShape.leaf.inj h)
      | struct name vars => cases h
  | struct name vars =>
      cases b with
      | leaf type value => cases h
      | struct name' vars' => rfl

theorem metaOfVars_of_shape {vars : List (UInt64 × DataType)}
    (ih : ∀ hashName a, (hashName, a) ∈ vars → ∀ b : DataType, a.shape = b.shape →
      a.getMeta = b.getMeta)
    {vars' : List (UInt64 × DataType)} (h : shapeVars vars = shapeVars vars') (hash : UInt64) :
    metaOfVars hash vars = metaOfVars hash vars' := by
  induction vars generalizing vars' hash with
  | nil =>
      cases vars' with
      | nil => rfl
      | cons var' vars' => cases h
  | cons var vars ihvars =>
      cases vars' with
      | nil => cases h
      | cons var' vars' =>
          rw [shapeVars, shapeVars, List.cons.injEq, Prod.mk.injEq] at h
          obtain ⟨⟨-, hshape⟩, hvars⟩ := h
          rw [metaOfVars, metaOfVars, ih var.1 var.2 List.mem_cons_self var'.2 hshape]
          exact ihvars (fun k a ha => ih k a (List.mem_cons_of_mem _ ha)) hvars _

theorem getMeta_of_shape {a b : DataType} (h : a.shape = b.shape) : a.getMeta = b.getMeta := by
  induction a using DataType.induct generalizing b with
  | hleaf type value =>
      cases b with
      | leaf type' value' =>
          obtain rfl : type = type' := DataShape.leaf.inj h
          cases type <;> rfl
      | struct name vars => cases h
  | hstruct name vars ih =>
      cases b with
      | leaf type value => cases h
      | struct name' vars' =>
          obtain ⟨-, hvars⟩ := DataShape.struct.inj h
          rw [getMeta, getMeta]
          exact metaOfVars_of_shape (fun k a ha b hb => ih k a ha hb) hvars _

theorem uniqueVars_iff {vars : List (UInt64 × DataShape)} :
    DataShape.UniqueVars vars ↔ ∀ var ∈ vars, var.2.Unique := by
  induction vars with
  | nil => simp [DataShape.UniqueVars]
  | cons var vars ih => rw [DataShape.UniqueVars, ih, List.forall_mem_cons]

end DataType

section

variable {vars vars' : List (UInt64 × DataType)} {k : UInt64} {old new : DataType}

theorem lookup_append_cons (hk : k ∉ vars.map Prod.fst) :
    (vars ++ (k, old) :: vars').lookup k = some old := by
  induction vars with
  | nil => rw [List.nil_append, List.lookup_cons, beq_self_eq_true]
  | cons var vars ih =>
      rw [List.map_cons, List.mem_cons, not_or] at hk
      rw [List.cons_append, List.lookup_cons, beq_false_of_ne hk.1]
      exact ih hk.2

theorem assignVar_eq_self (hk : k ∉ vars.map Prod.fst) : assignVar k new vars = vars := by
  rw [assignVar]
  refine (List.map_congr_left fun var hvar => if_neg ?_).trans (List.map_id _)
  rintro rfl
  exact hk (List.mem_map_of_mem hvar)

theorem assignVar_append_cons (hk : k ∉ vars.map Prod.fst) (hk' : k ∉ vars'.map Prod.fst) :
    assignVar k new (vars ++ (k, old) :: vars') = vars ++ (k, new) :: vars' := by
  have hleft : assignVar k new vars = vars := assignVar_eq_self hk
  have hright : assignVar k new vars' = vars' := assignVar_eq_self hk'
  rw [assignVar] at hleft hright ⊢
  rw [List.map_append, hleft, List.map_cons, hright, if_pos rfl]

theorem eq_append_cons_of_getElem? {i : ℕ} (h : vars[i]? = some (k, old))
    (hnodup : (vars.map Prod.fst).Nodup) :
    vars = vars.take i ++ (k, old) :: vars.drop (i + 1) ∧
      k ∉ (vars.take i).map Prod.fst ∧ k ∉ (vars.drop (i + 1)).map Prod.fst := by
  obtain ⟨hi, hget⟩ := List.getElem?_eq_some_iff.mp h
  have hsplit : vars = vars.take i ++ (k, old) :: vars.drop (i + 1) := by
    rw [← hget, ← List.drop_eq_getElem_cons hi, List.take_append_drop]
  rw [hsplit, List.map_append, List.map_cons, List.nodup_append, List.nodup_cons] at hnodup
  exact ⟨hsplit, fun hmem => hnodup.2.2 k hmem k List.mem_cons_self rfl, hnodup.2.1.1⟩

theorem lookup_of_getElem? {i : ℕ} (h : vars[i]? = some (k, old))
    (hnodup : (vars.map Prod.fst).Nodup) : vars.lookup k = some old := by
  obtain ⟨hsplit, hk, -⟩ := eq_append_cons_of_getElem? h hnodup
  rw [hsplit]
  exact lookup_append_cons hk

theorem assignVar_of_getElem? {i : ℕ} (h : vars[i]? = some (k, old))
    (hnodup : (vars.map Prod.fst).Nodup) : assignVar k new vars = vars.set i (k, new) := by
  obtain ⟨hsplit, hk, hk'⟩ := eq_append_cons_of_getElem? h hnodup
  have hi : i < vars.length := (List.getElem?_eq_some_iff.mp h).1
  rw [List.set_eq_take_append_cons_drop, if_pos hi]
  conv_lhs => rw [hsplit]
  exact assignVar_append_cons hk hk'

end

theorem eq_of_keys {vars vars' : List (UInt64 × DataType)}
    (hkeys : vars.map Prod.fst = vars'.map Prod.fst)
    (hvalues : ∀ (k : ℕ) (var var' : UInt64 × DataType), vars[k]? = some var →
      vars'[k]? = some var' → var.2 = var'.2) :
    vars = vars' := by
  have hlength : vars.length = vars'.length := by
    simpa using congrArg List.length hkeys
  refine List.ext_getElem hlength fun k hk hk' => Prod.ext ?_ ?_
  · have hkey := congrArg (fun keys => keys[k]?) hkeys
    simpa [hk, hk'] using hkey
  · exact hvalues k _ _ (List.getElem?_eq_getElem hk) (List.getElem?_eq_getElem hk')

namespace DataType

theorem copyVars_of_shape {vars : List (UInt64 × DataType)}
    (ih : ∀ hashName a, (hashName, a) ∈ vars → ∀ b : DataType, a.shape = b.shape →
      a.shape.Unique → a.copyTo b = some a)
    {done old : List (UInt64 × DataType)} (h : shapeVars vars = shapeVars old)
    (hnodup : ((done ++ vars).map Prod.fst).Nodup)
    (hunique : DataShape.UniqueVars (shapeVars vars)) :
    copyVars vars (done ++ old) = some (done ++ vars) := by
  induction vars generalizing done old with
  | nil =>
      cases old with
      | nil => rfl
      | cons var old => cases h
  | cons var vars ihvars =>
      obtain ⟨k, a⟩ := var
      cases old with
      | nil => cases h
      | cons var' old =>
          obtain ⟨k', b⟩ := var'
          rw [shapeVars, shapeVars, List.cons.injEq, Prod.mk.injEq] at h
          obtain ⟨⟨rfl, hshape⟩, hvars⟩ := h
          rw [List.map_append, List.map_cons, List.nodup_append, List.nodup_cons] at hnodup
          have hk : k ∉ done.map Prod.fst := fun hmem =>
            hnodup.2.2 k hmem k List.mem_cons_self rfl
          have hk' : k ∉ old.map Prod.fst := by
            rw [← map_fst_shapeVars, ← hvars, map_fst_shapeVars]
            exact hnodup.2.1.1
          rw [shapeVars, DataShape.UniqueVars] at hunique
          rw [copyVars, lookup_append_cons hk, Option.bind_eq_bind, Option.bind_some,
            ih k a List.mem_cons_self b hshape hunique.1, Option.bind_some,
            assignVar_append_cons hk hk', List.append_cons done (k, a) old,
            List.append_cons done (k, a) vars]
          refine ihvars (fun k a ha => ih k a (List.mem_cons_of_mem _ ha)) hvars ?_ hunique.2
          rw [← List.append_cons, List.map_append, List.nodup_append]
          exact ⟨hnodup.1, List.nodup_cons.mpr hnodup.2.1, hnodup.2.2⟩

/-- A value is copied into one of its own type. -/
theorem copyTo_of_shape {a b : DataType} (h : a.shape = b.shape) (hunique : a.shape.Unique) :
    a.copyTo b = some a := by
  induction a using DataType.induct generalizing b with
  | hleaf type value =>
      cases b with
      | leaf type' value' =>
          obtain rfl : type = type' := DataShape.leaf.inj h
          cases type with
          | none => rfl
          | array => rfl
          | flow => exact congrArg (Option.map (leaf .flow)) (ValueType.cast_self .int64 value)
          | enum reflector =>
              exact congrArg (Option.map (leaf (.enum reflector)))
                (ValueType.cast_self .int64 value)
          | value type =>
              exact congrArg (Option.map (leaf (.value type))) (ValueType.cast_self type value)
      | struct name vars => cases h
  | hstruct name vars ih =>
      cases b with
      | leaf type value => cases h
      | struct name' vars' =>
          obtain ⟨rfl, hvars⟩ := DataShape.struct.inj h
          obtain ⟨hnodup, huniqueVars⟩ := hunique
          rw [map_fst_shapeVars] at hnodup
          have hcopied : copyVars vars ([] ++ vars') = some ([] ++ vars) :=
            copyVars_of_shape (fun k a ha b hb hu => ih k a ha hb hu) hvars hnodup huniqueVars
          rw [copyTo]
          exact congrArg (Option.map (struct name)) hcopied

end DataType

end SRCommon
