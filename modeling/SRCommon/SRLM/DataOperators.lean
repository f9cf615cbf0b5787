import Mathlib.Algebra.Group.Int.Defs
import Mathlib.Algebra.Group.Nat.Defs
import Mathlib.Data.List.Basic
import Mathlib.Tactic.Common
import SRCommon.SRLM.DataType

/-!
# Operators of logical nodes

An operator reads two objects through pointers and allocates its result. The
arithmetic operators go through the pointers to the values, the comparisons do
not: they compare the pointers.
-/

namespace SRCommon

/-- The classes that hold an integer. -/
inductive IntegerClass where
  | int8
  | int16
  | int32
  | int64
  | uint8
  | uint16
  | uint32
  | uint64
  deriving DecidableEq

namespace IntegerClass

def all : List IntegerClass := [int8, int16, int32, int64, uint8, uint16, uint32, uint64]

def valueType : IntegerClass → ValueType
  | int8 => .int8
  | int16 => .int16
  | int32 => .int32
  | int64 => .int64
  | uint8 => .uint8
  | uint16 => .uint16
  | uint32 => .uint32
  | uint64 => .uint64

def width : IntegerClass → ℕ
  | int8 | uint8 => 8
  | int16 | uint16 => 16
  | int32 | uint32 => 32
  | int64 | uint64 => 64

def isSigned : IntegerClass → Bool
  | int8 | int16 | int32 | int64 => true
  | uint8 | uint16 | uint32 | uint64 => false

def toInt : (type : IntegerClass) → type.valueType.Value → ℤ
  | int8 => Int8.toInt
  | int16 => Int16.toInt
  | int32 => Int32.toInt
  | int64 => Int64.toInt
  | uint8 => fun value => (UInt8.toNat value : ℤ)
  | uint16 => fun value => (UInt16.toNat value : ℤ)
  | uint32 => fun value => (UInt32.toNat value : ℤ)
  | uint64 => fun value => (UInt64.toNat value : ℤ)

/-- What the lowest bytes of a number are as a value of the class. -/
def ofInt : (type : IntegerClass) → ℤ → type.valueType.Value
  | int8 => Int8.ofInt
  | int16 => Int16.ofInt
  | int32 => Int32.ofInt
  | int64 => Int64.ofInt
  | uint8 => UInt8.ofInt
  | uint16 => UInt16.ofInt
  | uint32 => UInt32.ofInt
  | uint64 => UInt64.ofInt

/-- The type in which C++ computes. -/
def promoted : IntegerClass → IntegerClass
  | int8 | int16 | int32 | uint8 | uint16 => int32
  | int64 => int64
  | uint32 => uint32
  | uint64 => uint64

def minValue (type : IntegerClass) : ℤ := if type.isSigned then -2 ^ (type.width - 1) else 0

def maxValue (type : IntegerClass) : ℤ :=
  if type.isSigned then 2 ^ (type.width - 1) - 1 else 2 ^ type.width - 1

def InRange (type : IntegerClass) (z : ℤ) : Prop := type.minValue ≤ z ∧ z ≤ type.maxValue

instance (type : IntegerClass) (z : ℤ) : Decidable (type.InRange z) :=
  inferInstanceAs (Decidable (_ ∧ _))

end IntegerClass

/-- The objects in the order in which they were allocated. A pointer is a place there. -/
abbrev DataHeap := List DataType

/-- Where the allocator has put the `m_value` of each object. -/
structure DataAddresses where
  address : ℕ → ℕ
  ne_zero : ∀ p, address p ≠ 0
  injective : ∀ p q, address p = address q → p = q

namespace DataHeap

/-- `Allocate`, with `SetCustomValue`. -/
def allocate (heap : DataHeap) (type : ValueType) (value : type.Value) : Option ℕ × DataHeap :=
  (some heap.length, heap ++ [.leaf (.value type) value])

/-- `SetCustomValue` of a truth value. -/
def setBool (heap : DataHeap) (p : ℕ) (value : Bool) : Option DataHeap := do
  let data ← heap[p]?
  let data ← data.setCustomValue .bool value
  some (heap.set p data)

end DataHeap

def integerClasses : List DataTypeClass :=
  [.int8, .int16, .int32, .int64, .uint8, .uint16, .uint32, .uint64]

def numberClasses : List DataTypeClass := [.float] ++ integerClasses ++ [.double]

/-! ## Comparisons -/

section

variable (this : DataAddresses) (heap : DataHeap) (pFirst pSecond : ℕ)

/-- `SR_LM_LOGICAL_OPERATOR` for each of the classes. The answer is a pointer, which may be null;
there is none where a null pointer is read. -/
def logicalOperator (classes : List DataTypeClass) (operator : ℕ → ℕ → Bool) :
    Option (Option ℕ × DataHeap) := do
  let first ← heap[pFirst]?
  let second ← heap[pSecond]?
  if first.getClass ≠ second.getClass then some (none, heap)
  else if first.getClass ∈ classes then
    some (heap.allocate .bool (operator (this.address pFirst) (this.address pSecond)))
  else some (none, heap)

def DataOperatorIsEqual.calculate : Option (Option ℕ × DataHeap) :=
  logicalOperator this heap pFirst pSecond (numberClasses ++ [.string]) fun p q => p = q

/-- `GetBool`, as a condition. -/
def DataAddresses.getBool (p : ℕ) : Bool := this.address p ≠ 0

def DataOperatorIsNotEqual.calculate : Option (Option ℕ × DataHeap) := do
  let isEqual ← DataOperatorIsEqual.calculate this heap pFirst pSecond
  let result ← isEqual.1
  let heap ← isEqual.2.setBool result !this.getBool result
  some (some result, heap)

def DataOperatorIsGreater.calculate : Option (Option ℕ × DataHeap) :=
  logicalOperator this heap pFirst pSecond numberClasses fun p q => q < p

def DataOperatorIsLess.calculate : Option (Option ℕ × DataHeap) :=
  logicalOperator this heap pFirst pSecond numberClasses fun p q => p < q

/-- The end of `IsGreaterOrEqual` and of `IsLessOrEqual`. The second operand of the disjunction is
read only if need be. -/
def orEqual (heap : DataHeap) (strict isEqual : Option ℕ) : Option (Option ℕ × DataHeap) := do
  let result := heap.allocate .bool false
  let strict ← strict
  let holds ← if this.getBool strict then some true else isEqual.map this.getBool
  if holds then
    let p ← result.1
    let heap ← result.2.setBool p true
    some (some p, heap)
  else some result

def DataOperatorIsGreaterOrEqual.calculate : Option (Option ℕ × DataHeap) := do
  let isGreater ← DataOperatorIsGreater.calculate this heap pFirst pSecond
  let isEqual ← DataOperatorIsEqual.calculate this isGreater.2 pFirst pSecond
  orEqual this isEqual.2 isGreater.1 isEqual.1

def DataOperatorIsLessOrEqual.calculate : Option (Option ℕ × DataHeap) := do
  let isLess ← DataOperatorIsLess.calculate this heap pFirst pSecond
  let isEqual ← DataOperatorIsEqual.calculate this isLess.2 pFirst pSecond
  orEqual this isEqual.2 isLess.1 isEqual.1

end

/-! ## Arithmetic -/

inductive ArithmeticOperator where
  | addition
  | subtraction
  | multiplication
  | division
  | modulo
  deriving DecidableEq

namespace ArithmeticOperator

def classes : ArithmeticOperator → List DataTypeClass
  | addition => numberClasses ++ [.string]
  | subtraction | multiplication | division => numberClasses
  | modulo => integerClasses

def exact : ArithmeticOperator → ℤ → ℤ → ℤ
  | addition => (· + ·)
  | subtraction => (· - ·)
  | multiplication => (· * ·)
  | division => Int.tdiv
  | modulo => Int.tmod

/-- What must be a value of a signed type for the operator to have a meaning in it. -/
def checked : ArithmeticOperator → ℤ → ℤ → ℤ
  | modulo => Int.tdiv
  | op => op.exact

def divides : ArithmeticOperator → Bool
  | division | modulo => true
  | _ => false

/-- The operator on two values of a promoted type. What C++ leaves undefined has no result. -/
def evaluate (op : ArithmeticOperator) (type : IntegerClass) (x y : ℤ) : Option ℤ :=
  if op.divides ∧ y = 0 then none
  else if type.isSigned then
    if type.InRange (op.checked x y) then some (op.exact x y) else none
  else some (op.exact x y % 2 ^ type.width)

end ArithmeticOperator

/-- The operators on floating numbers, which are known by their bits. -/
structure FloatOperators where
  float : ArithmeticOperator → UInt32 → UInt32 → UInt32
  double : ArithmeticOperator → UInt64 → UInt64 → UInt64

section

variable (floats : FloatOperators) (op : ArithmeticOperator)

/-- The result is of the promoted type. `SetRawValue` reads its first bytes, the lowest ones. -/
def integerCalculation (type : IntegerClass) (a b : type.valueType.Value) :
    Option type.valueType.Value :=
  (op.evaluate type.promoted (type.toInt a) (type.toInt b)).map type.ofInt

/-- The value that `SetCustomValue` is called with, read as the class reads it. -/
def calculation : (type : ValueType) → type.Value → type.Value → Option type.Value
  | .bool, _, _ => none
  | .float, a, b => some (floats.float op a b)
  | .double, a, b => some (floats.double op a b)
  | .string, a, b => some (List.append a b)
  | .int8, a, b => integerCalculation op .int8 a b
  | .int16, a, b => integerCalculation op .int16 a b
  | .int32, a, b => integerCalculation op .int32 a b
  | .int64, a, b => integerCalculation op .int64 a b
  | .uint8, a, b => integerCalculation op .uint8 a b
  | .uint16, a, b => integerCalculation op .uint16 a b
  | .uint32, a, b => integerCalculation op .uint32 a b
  | .uint64, a, b => integerCalculation op .uint64 a b

/-- `SR_LM_OPERATOR_CALCULATION` for each of the classes. -/
def operatorCalculation (heap : DataHeap) (pFirst pSecond : ℕ) : Option (Option ℕ × DataHeap) := do
  let first ← heap[pFirst]?
  let second ← heap[pSecond]?
  if first.getClass ≠ second.getClass then some (none, heap)
  else if first.getClass ∈ op.classes then
    match first, second with
    | .leaf (.value type) a, .leaf (.value type') b => do
        let b ← type'.cast type b
        let value ← calculation floats op type a b
        some (heap.allocate type value)
    | _, _ => none
  else some (none, heap)

end

def DataOperatorAddition.calculate (floats : FloatOperators) :
    DataHeap → ℕ → ℕ → Option (Option ℕ × DataHeap) :=
  operatorCalculation floats .addition

def DataOperatorSubtraction.calculate (floats : FloatOperators) :
    DataHeap → ℕ → ℕ → Option (Option ℕ × DataHeap) :=
  operatorCalculation floats .subtraction

def DataOperatorMultiplication.calculate (floats : FloatOperators) :
    DataHeap → ℕ → ℕ → Option (Option ℕ × DataHeap) :=
  operatorCalculation floats .multiplication

def DataOperatorDivision.calculate (floats : FloatOperators) :
    DataHeap → ℕ → ℕ → Option (Option ℕ × DataHeap) :=
  operatorCalculation floats .division

def DataOperatorModulo.calculate (floats : FloatOperators) :
    DataHeap → ℕ → ℕ → Option (Option ℕ × DataHeap) :=
  operatorCalculation floats .modulo

/-! ## What the comparisons compare -/

/-- The answer is a new object that holds whether the proposition is true. -/
def ReturnsBool (result : Option (Option ℕ × DataHeap)) (P : Prop) : Prop :=
  ∃ p heap value, result = some (some p, heap) ∧
    heap[p]? = some (.leaf (.value .bool) value) ∧ (value = true ↔ P)

section

variable (this : DataAddresses) (heap : DataHeap) (pFirst pSecond : ℕ)

structure ComparesEqual {α : Type} (a b : α) : Prop where
  isEqual : ReturnsBool (DataOperatorIsEqual.calculate this heap pFirst pSecond) (a = b)
  isNotEqual : ReturnsBool (DataOperatorIsNotEqual.calculate this heap pFirst pSecond) (a ≠ b)

structure ComparesOrder (a b : ℤ) : Prop where
  isGreater : ReturnsBool (DataOperatorIsGreater.calculate this heap pFirst pSecond) (b < a)
  isLess : ReturnsBool (DataOperatorIsLess.calculate this heap pFirst pSecond) (a < b)
  isGreaterOrEqual :
    ReturnsBool (DataOperatorIsGreaterOrEqual.calculate this heap pFirst pSecond) (b ≤ a)
  isLessOrEqual :
    ReturnsBool (DataOperatorIsLessOrEqual.calculate this heap pFirst pSecond) (a ≤ b)

end

section

variable (this : DataAddresses) {heap : DataHeap} {pFirst pSecond : ℕ} {first second : DataType}
  {P : Prop}

theorem returnsBool_last {value : Bool} {result : Option (Option ℕ × DataHeap)}
    (h : result = some (some heap.length, heap ++ [.leaf (.value .bool) value])) :
    ReturnsBool result P ↔ (value = true ↔ P) := by
  constructor
  · rintro ⟨p, heap', value', heq, hread, hvalue⟩
    cases h.symm.trans heq
    rw [List.getElem?_concat_length] at hread
    cases hread
    exact hvalue
  · intro hvalue
    exact ⟨_, _, value, h, List.getElem?_concat_length, hvalue⟩

theorem setBool_last (value value' : Bool) :
    DataHeap.setBool (heap ++ [.leaf (.value .bool) value]) heap.length value' =
      some (heap ++ [.leaf (.value .bool) value']) := by
  have hset : DataType.setCustomValue (.leaf (.value .bool) value) .bool value' =
      some (.leaf (.value .bool) value') :=
    congrArg (Option.map (DataType.leaf (.value .bool))) (ValueType.cast_self .bool value')
  simp [DataHeap.setBool, hset]

theorem getBool_eq_true (p : ℕ) : this.getBool p = true := decide_eq_true (this.ne_zero p)

theorem getElem?_allocate (h : heap[pFirst]? = some first) (type : ValueType) (value : type.Value) :
    (heap.allocate type value).2[pFirst]? = some first := by
  obtain ⟨hlt, -⟩ := List.getElem?_eq_some_iff.mp h
  rw [← h]
  exact List.getElem?_append_left hlt

/-- Both answers of the disjunction are pointers that are not null. -/
theorem orEqual_eq (strict isEqual : ℕ) :
    orEqual this heap (some strict) (some isEqual) =
      some (some heap.length, heap ++ [.leaf (.value .bool) true]) := by
  simp only [orEqual, DataHeap.allocate, Option.bind_eq_bind, Option.bind_some, getBool_eq_true,
    if_true, setBool_last]

variable (hfirst : heap[pFirst]? = some first) (hsecond : heap[pSecond]? = some second)
  (hclass : first.getClass = second.getClass)

include hfirst hsecond hclass

theorem logicalOperator_eq {classes : List DataTypeClass} (hmem : first.getClass ∈ classes)
    (operator : ℕ → ℕ → Bool) :
    logicalOperator this heap pFirst pSecond classes operator =
      some (heap.allocate .bool (operator (this.address pFirst) (this.address pSecond))) := by
  simp [logicalOperator, hfirst, hsecond, ← hclass, hmem]

theorem isEqual_eq (hmem : first.getClass ∈ numberClasses ++ [.string]) :
    DataOperatorIsEqual.calculate this heap pFirst pSecond =
      some (heap.allocate .bool (decide (pFirst = pSecond))) := by
  have haddress : (this.address pFirst = this.address pSecond) ↔ pFirst = pSecond :=
    ⟨this.injective pFirst pSecond, congrArg this.address⟩
  rw [DataOperatorIsEqual.calculate, logicalOperator_eq this hfirst hsecond hclass hmem]
  simp only [haddress]

/-- The pointer to the result is negated, not what it points to. -/
theorem isNotEqual_eq (hmem : first.getClass ∈ numberClasses ++ [.string]) :
    DataOperatorIsNotEqual.calculate this heap pFirst pSecond =
      some (some heap.length, heap ++ [.leaf (.value .bool) false]) := by
  rw [DataOperatorIsNotEqual.calculate, isEqual_eq this hfirst hsecond hclass hmem]
  simp only [Option.bind_eq_bind, Option.bind_some, DataHeap.allocate, getBool_eq_true,
    setBool_last, Bool.not_true]

theorem comparesEqual_iff (hmem : first.getClass ∈ numberClasses ++ [.string]) {α : Type} {a b : α}
    (hsame : pFirst = pSecond → a = b) :
    ComparesEqual this heap pFirst pSecond a b ↔ pFirst = pSecond := by
  have hequal := returnsBool_last (P := a = b) (isEqual_eq this hfirst hsecond hclass hmem)
  have hnot := returnsBool_last (P := a ≠ b) (isNotEqual_eq this hfirst hsecond hclass hmem)
  constructor
  · rintro ⟨h, h'⟩
    have hab : a = b := by simpa using hnot.mp h'
    simpa [hab] using hequal.mp h
  · intro h
    exact ⟨hequal.mpr (by simp [h, hsame h]), hnot.mpr (by simp [hsame h])⟩

section

variable (hmem : first.getClass ∈ numberClasses)

include hmem

theorem isGreater_eq :
    DataOperatorIsGreater.calculate this heap pFirst pSecond =
      some (heap.allocate .bool (decide (this.address pSecond < this.address pFirst))) := by
  rw [DataOperatorIsGreater.calculate, logicalOperator_eq this hfirst hsecond hclass hmem]

theorem isLess_eq :
    DataOperatorIsLess.calculate this heap pFirst pSecond =
      some (heap.allocate .bool (decide (this.address pFirst < this.address pSecond))) := by
  rw [DataOperatorIsLess.calculate, logicalOperator_eq this hfirst hsecond hclass hmem]

/-- Both disjunctions end alike: the answer is true, whatever is compared. -/
theorem orEqual_allocate (value : Bool) :
    ∃ heap' : DataHeap, (do
      let isEqual ← DataOperatorIsEqual.calculate this (heap.allocate .bool value).2 pFirst pSecond
      orEqual this isEqual.2 (heap.allocate .bool value).1 isEqual.1) =
        some (some heap'.length, heap' ++ [.leaf (.value .bool) true]) := by
  have hequal := isEqual_eq this (getElem?_allocate hfirst .bool value)
    (getElem?_allocate hsecond .bool value) hclass (List.mem_append_left _ hmem)
  rw [hequal]
  exact ⟨_, orEqual_eq this heap.length (heap.allocate .bool value).2.length⟩

theorem isGreaterOrEqual_eq :
    ∃ heap' : DataHeap, DataOperatorIsGreaterOrEqual.calculate this heap pFirst pSecond =
      some (some heap'.length, heap' ++ [.leaf (.value .bool) true]) := by
  rw [DataOperatorIsGreaterOrEqual.calculate, isGreater_eq this hfirst hsecond hclass hmem]
  exact orEqual_allocate this hfirst hsecond hclass hmem _

theorem isLessOrEqual_eq :
    ∃ heap' : DataHeap, DataOperatorIsLessOrEqual.calculate this heap pFirst pSecond =
      some (some heap'.length, heap' ++ [.leaf (.value .bool) true]) := by
  rw [DataOperatorIsLessOrEqual.calculate, isLess_eq this hfirst hsecond hclass hmem]
  exact orEqual_allocate this hfirst hsecond hclass hmem _

theorem comparesOrder_of_eq (h : pFirst = pSecond) (a : ℤ) :
    ComparesOrder this heap pFirst pSecond a a := by
  obtain ⟨heap₁, hgreater⟩ := isGreaterOrEqual_eq this hfirst hsecond hclass hmem
  obtain ⟨heap₂, hless⟩ := isLessOrEqual_eq this hfirst hsecond hclass hmem
  exact
    { isGreater :=
        (returnsBool_last (isGreater_eq this hfirst hsecond hclass hmem)).mpr (by simp [h])
      isLess := (returnsBool_last (isLess_eq this hfirst hsecond hclass hmem)).mpr (by simp [h])
      isGreaterOrEqual := (returnsBool_last hgreater).mpr (by simp)
      isLessOrEqual := (returnsBool_last hless).mpr (by simp) }

end

end

theorem IntegerClass.getClass_mem (type : IntegerClass) :
    type.valueType.getClass ∈ numberClasses := by
  cases type <;> decide

/-- All comparisons of two objects give what the values are if and only if the objects are one. -/
theorem comparesValues_iff (this : DataAddresses) (heap : DataHeap) (pFirst pSecond : ℕ) :
    (∀ (type : IntegerClass) (a b : type.valueType.Value),
        heap[pFirst]? = some (.leaf (.value type.valueType) a) →
        heap[pSecond]? = some (.leaf (.value type.valueType) b) →
          (ComparesEqual this heap pFirst pSecond a b ∧
            ComparesOrder this heap pFirst pSecond (type.toInt a) (type.toInt b) ↔
              pFirst = pSecond)) ∧
      ∀ a b : Text, heap[pFirst]? = some (.leaf (.value .string) a) →
        heap[pSecond]? = some (.leaf (.value .string) b) →
          (ComparesEqual this heap pFirst pSecond a b ↔ pFirst = pSecond) := by
  constructor
  · intro type a b hfirst hsecond
    have hmem : (DataType.leaf (.value type.valueType) a).getClass ∈ numberClasses :=
      type.getClass_mem
    have hsame (h : pFirst = pSecond) : a = b := by
      rw [h, hsecond] at hfirst
      cases hfirst
      rfl
    have hequal := comparesEqual_iff this hfirst hsecond rfl (List.mem_append_left _ hmem) hsame
    constructor
    · rintro ⟨h, -⟩
      exact hequal.mp h
    · intro h
      refine ⟨hequal.mpr h, ?_⟩
      rw [← hsame h]
      exact comparesOrder_of_eq this hfirst hsecond rfl hmem h _
  · intro a b hfirst hsecond
    refine comparesEqual_iff this hfirst hsecond rfl
      (List.mem_append_right _ (List.mem_singleton_self _)) fun h => ?_
    rw [h, hsecond] at hfirst
    cases hfirst
    rfl

/-- One object right behind the other. -/
def DataAddresses.inOrder : DataAddresses where
  address p := p + 1
  ne_zero := Nat.succ_ne_zero
  injective _ _ := Nat.succ.inj

/-- Two objects that hold the same number are not equal. -/
theorem not_comparesValues :
    ¬ ∀ (this : DataAddresses) (heap : DataHeap) (pFirst pSecond : ℕ) (type : IntegerClass)
        (a b : type.valueType.Value),
      heap[pFirst]? = some (.leaf (.value type.valueType) a) →
      heap[pSecond]? = some (.leaf (.value type.valueType) b) →
        ComparesEqual this heap pFirst pSecond a b ∧
          ComparesOrder this heap pFirst pSecond (type.toInt a) (type.toInt b) := by
  intro h
  let one : DataType := .leaf (.value .int8) (1 : Int8)
  have hfirst : [one, one][0]? = some one := rfl
  have hsecond : [one, one][1]? = some one := rfl
  have hone := h .inOrder [one, one] 0 1 .int8 (1 : Int8) (1 : Int8) hfirst hsecond
  have heq : 0 = 1 :=
    (comparesEqual_iff .inOrder hfirst hsecond rfl (by decide) fun _ => rfl).mp hone.1
  exact absurd heq (by decide)

theorem comparesValues_iff_one :
    ComparesEqual .inOrder [.leaf (.value .uint16) (7 : UInt16)] 0 0 (7 : UInt16) (7 : UInt16) ∧
      ¬ ComparesEqual .inOrder
          [.leaf (.value .string) (Text.lit "a"), .leaf (.value .string) (Text.lit "a")] 0 1
          (Text.lit "a") (Text.lit "a") :=
  ⟨(((comparesValues_iff .inOrder [.leaf (.value .uint16) (7 : UInt16)] 0 0).1 .uint16 (7 : UInt16)
      (7 : UInt16) rfl rfl).mpr rfl).1,
    mt ((comparesValues_iff .inOrder
      [.leaf (.value .string) (Text.lit "a"), .leaf (.value .string) (Text.lit "a")] 0 1).2
      (Text.lit "a") (Text.lit "a") rfl rfl).mp (by decide)⟩

/-! ## What the arithmetic operators compute -/

namespace ArithmeticOperator

/-- The operator has a meaning on two values of a promoted type. -/
def Defined (op : ArithmeticOperator) (type : IntegerClass) (x y : ℤ) : Prop :=
  (op.divides → y ≠ 0) ∧ (type.isSigned → type.InRange (op.checked x y))

/-- The same by the class of the operands. -/
def Fits (op : ArithmeticOperator) (type : IntegerClass) (x y : ℤ) : Prop :=
  match op with
  | addition => type = .int32 ∨ type = .int64 → type.InRange (x + y)
  | subtraction => type = .int32 ∨ type = .int64 → type.InRange (x - y)
  | multiplication =>
      type = .uint16 ∨ type = .int32 ∨ type = .int64 → type.promoted.InRange (x * y)
  | division | modulo =>
      y ≠ 0 ∧ ¬ ((type = .int32 ∨ type = .int64) ∧ x = type.minValue ∧ y = -1)

variable {op : ArithmeticOperator} {type : IntegerClass} {x y : ℤ}

theorem evaluate_of_defined (h : op.Defined type x y) :
    op.evaluate type x y = some (if type.isSigned then op.exact x y
      else op.exact x y % 2 ^ type.width) := by
  obtain ⟨hne, hrange⟩ := h
  rw [evaluate, if_neg fun hzero => hne hzero.1 hzero.2]
  split
  · next hsigned => rw [if_pos (hrange hsigned)]
  · rfl

theorem evaluate_of_not_defined (h : ¬ op.Defined type x y) : op.evaluate type x y = none := by
  rw [evaluate]
  split
  · rfl
  · next hzero =>
      split
      · next hsigned =>
          refine if_neg fun hrange => h ⟨fun hdiv hy => hzero ⟨hdiv, hy⟩, fun _ => hrange⟩
      · next hsigned =>
          exact absurd ⟨fun hdiv hy => hzero ⟨hdiv, hy⟩, fun hs => absurd hs hsigned⟩ h

end ArithmeticOperator

namespace IntegerClass

theorem inRange_toInt (type : IntegerClass) (value : type.valueType.Value) :
    type.InRange (type.toInt value) := by
  cases type with
  | int8 => exact ⟨Int8.le_toInt value, Int.le_sub_one_of_lt (Int8.toInt_lt value)⟩
  | int16 => exact ⟨Int16.le_toInt value, Int.le_sub_one_of_lt (Int16.toInt_lt value)⟩
  | int32 => exact ⟨Int32.le_toInt value, Int.le_sub_one_of_lt (Int32.toInt_lt value)⟩
  | int64 => exact ⟨Int64.le_toInt value, Int.le_sub_one_of_lt (Int64.toInt_lt value)⟩
  | uint8 =>
      have := UInt8.toNat_lt value
      exact ⟨Int.natCast_nonneg _, by change ((UInt8.toNat value : ℕ) : ℤ) ≤ 255; omega⟩
  | uint16 =>
      have := UInt16.toNat_lt value
      exact ⟨Int.natCast_nonneg _, by change ((UInt16.toNat value : ℕ) : ℤ) ≤ 65535; omega⟩
  | uint32 =>
      have := UInt32.toNat_lt value
      exact ⟨Int.natCast_nonneg _, by change ((UInt32.toNat value : ℕ) : ℤ) ≤ 4294967295; omega⟩
  | uint64 =>
      have := UInt64.toNat_lt value
      exact ⟨Int.natCast_nonneg _,
        by change ((UInt64.toNat value : ℕ) : ℤ) ≤ 18446744073709551615; omega⟩

theorem toInt_ofInt_emod (type : IntegerClass) (z : ℤ) :
    type.toInt (type.ofInt z) % 2 ^ type.width = z % 2 ^ type.width := by
  cases type with
  | int8 => exact (congrArg (· % _) Int8.toInt_ofInt).trans Int.bmod_emod
  | int16 => exact (congrArg (· % _) Int16.toInt_ofInt).trans Int.bmod_emod
  | int32 => exact (congrArg (· % _) Int32.toInt_ofInt).trans Int.bmod_emod
  | int64 => exact (congrArg (· % _) Int64.toInt_ofInt).trans Int.bmod_emod
  | uint8 =>
      have hvalue : (UInt8.ofInt z).toNat = (z % 256).toNat % 256 := UInt8.toNat_ofNat'
      change ((UInt8.ofInt z).toNat : ℤ) % 256 = z % 256
      omega
  | uint16 =>
      have hvalue : (UInt16.ofInt z).toNat = (z % 65536).toNat % 65536 := UInt16.toNat_ofNat'
      change ((UInt16.ofInt z).toNat : ℤ) % 65536 = z % 65536
      omega
  | uint32 =>
      have hvalue : (UInt32.ofInt z).toNat = (z % 4294967296).toNat % 4294967296 :=
        UInt32.toNat_ofNat'
      change ((UInt32.ofInt z).toNat : ℤ) % 4294967296 = z % 4294967296
      omega
  | uint64 =>
      have hvalue : (UInt64.ofInt z).toNat =
          (z % 18446744073709551616).toNat % 18446744073709551616 := UInt64.toNat_ofNat'
      change ((UInt64.ofInt z).toNat : ℤ) % 18446744073709551616 = z % 18446744073709551616
      omega

end IntegerClass

namespace ArithmeticOperator

variable {op : ArithmeticOperator} {type : IntegerClass} {x y : ℤ}

/-- A quotient is out of range only if it is the one of the least value by `-1`. -/
theorem inRange_tdiv_iff (hx : type.InRange x) (hy : y ≠ 0) (hsigned : type.isSigned) :
    type.InRange (x.tdiv y) ↔ ¬ (x = type.minValue ∧ y = -1) := by
  have hmin : type.minValue = -(type.maxValue + 1) := by
    cases type <;> first | rfl | exact absurd hsigned (by decide)
  have hmax : 0 < type.maxValue := by cases type <;> decide
  obtain ⟨hle, hle'⟩ := hx
  by_cases hone : y = 1
  · rw [hone, Int.tdiv_one]
    exact ⟨fun _ h => absurd h.2 (by decide), fun _ => ⟨hle, hle'⟩⟩
  by_cases hneg : y = -1
  · rw [hneg, Int.tdiv_neg, Int.tdiv_one, IntegerClass.InRange]
    omega
  -- Every other divisor at least halves the value.
  · have hhalf : (x.tdiv y).natAbs ≤ x.natAbs / 2 := by
      rw [Int.natAbs_tdiv]
      exact Nat.div_le_div_left (by omega) (by decide)
    exact ⟨fun _ h => hneg h.2, fun _ => ⟨by omega, by omega⟩⟩

theorem natAbs_mul_le {m : ℕ} (hx : x.natAbs ≤ m) (hy : y.natAbs ≤ m) :
    (x * y).natAbs ≤ m * m := by
  rw [Int.natAbs_mul]
  exact Nat.mul_le_mul hx hy

theorem inRange_iff (type : IntegerClass) (z : ℤ) :
    type.InRange z ↔ match type with
      | .int8 => -128 ≤ z ∧ z ≤ 127
      | .int16 => -32768 ≤ z ∧ z ≤ 32767
      | .int32 => -2147483648 ≤ z ∧ z ≤ 2147483647
      | .int64 => -9223372036854775808 ≤ z ∧ z ≤ 9223372036854775807
      | .uint8 => 0 ≤ z ∧ z ≤ 255
      | .uint16 => 0 ≤ z ∧ z ≤ 65535
      | .uint32 => 0 ≤ z ∧ z ≤ 4294967295
      | .uint64 => 0 ≤ z ∧ z ≤ 18446744073709551615 := by
  cases type <;> exact Iff.rfl

section

variable (hx : type.InRange x) (hy : type.InRange y)

include hx hy

theorem defined_sum_iff (hop : op = addition ∨ op = subtraction) :
    op.Defined type.promoted x y ↔ op.Fits type x y := by
  rw [inRange_iff] at hx hy
  rcases hop with rfl | rfl <;> cases type <;>
    simp [Defined, Fits, divides, checked, exact, inRange_iff, IntegerClass.promoted,
      IntegerClass.isSigned] at hx hy ⊢ <;> omega

/-- Of the small classes only `UInt16` has products that are too large for `int`. -/
theorem defined_multiplication_iff :
    multiplication.Defined type.promoted x y ↔ multiplication.Fits type x y := by
  have hsmall {m : ℕ} (hm : m * m < 2147483648) (hx : x.natAbs ≤ m) (hy : y.natAbs ≤ m) :
      -2147483648 ≤ x * y ∧ x * y ≤ 2147483647 := by
    have hprod := natAbs_mul_le hx hy
    omega
  rw [inRange_iff] at hx hy
  cases type with
  | int8 =>
      have := hsmall (m := 128) (by decide) (by omega) (by omega)
      simpa [Defined, Fits, divides, checked, exact, inRange_iff, IntegerClass.promoted] using
        fun _ => this
  | int16 =>
      have := hsmall (m := 32768) (by decide) (by omega) (by omega)
      simpa [Defined, Fits, divides, checked, exact, inRange_iff, IntegerClass.promoted] using
        fun _ => this
  | uint8 =>
      have := hsmall (m := 255) (by decide) (by omega) (by omega)
      simpa [Defined, Fits, divides, checked, exact, inRange_iff, IntegerClass.promoted] using
        fun _ => this
  | _ => simp [Defined, Fits, divides, checked, exact, IntegerClass.promoted, IntegerClass.isSigned]

theorem inRange_promoted_tdiv_iff (hne : y ≠ 0) (hsigned : type.promoted.isSigned) :
    type.promoted.InRange (x.tdiv y) ↔
      ¬ ((type = .int32 ∨ type = .int64) ∧ x = type.minValue ∧ y = -1) := by
  have hle : (x.tdiv y).natAbs ≤ x.natAbs := Int.natAbs_tdiv_le_natAbs x y
  cases type with
  | int32 => simpa [IntegerClass.promoted] using inRange_tdiv_iff hx hne rfl
  | int64 => simpa [IntegerClass.promoted] using inRange_tdiv_iff hx hne rfl
  | uint32 => exact absurd hsigned (by decide)
  | uint64 => exact absurd hsigned (by decide)
  | _ =>
      rw [inRange_iff] at hx
      simp only [reduceCtorEq, or_self, false_and, not_false_eq_true, iff_true, inRange_iff,
        IntegerClass.promoted]
      omega

theorem defined_iff (op : ArithmeticOperator) :
    op.Defined type.promoted x y ↔ op.Fits type x y := by
  have hdivides : (y ≠ 0 ∧ (type.promoted.isSigned → type.promoted.InRange (x.tdiv y))) ↔
      y ≠ 0 ∧ ¬ ((type = .int32 ∨ type = .int64) ∧ x = type.minValue ∧ y = -1) := by
    refine and_congr_right fun hne => ?_
    by_cases hsigned : type.promoted.isSigned
    · rw [← inRange_promoted_tdiv_iff hx hy hne hsigned]
      exact ⟨fun h => h hsigned, fun h _ => h⟩
    · refine iff_of_true (fun h => absurd h hsigned) ?_
      rintro ⟨rfl | rfl, -⟩ <;> exact hsigned rfl
  cases op with
  | addition => exact defined_sum_iff hx hy (.inl rfl)
  | subtraction => exact defined_sum_iff hx hy (.inr rfl)
  | multiplication => exact defined_multiplication_iff hx hy
  | division =>
      rw [Fits, ← hdivides, Defined]
      exact and_congr_left' ⟨fun h => h rfl, fun h _ => h⟩
  | modulo =>
      rw [Fits, ← hdivides, Defined]
      exact and_congr_left' ⟨fun h => h rfl, fun h _ => h⟩

end

end ArithmeticOperator

/-- The answer is a new object of the class, with the number modulo its width. -/
def ReturnsInteger (result : Option (Option ℕ × DataHeap)) (heap : DataHeap) (type : IntegerClass)
    (z : ℤ) : Prop :=
  ∃ value, result = some (some heap.length, heap ++ [.leaf (.value type.valueType) value]) ∧
    type.toInt value % 2 ^ type.width = z % 2 ^ type.width

section

variable (floats : FloatOperators) (op : ArithmeticOperator) (type : IntegerClass)
  (a b : type.valueType.Value)

theorem calculation_valueType :
    calculation floats op type.valueType a b = integerCalculation op type a b := by
  cases type <;> rfl

theorem getClass_mem_classes : type.valueType.getClass ∈ op.classes := by
  cases op <;> cases type <;> decide

theorem operatorCalculation_eq {heap : DataHeap} {pFirst pSecond : ℕ}
    (hfirst : heap[pFirst]? = some (.leaf (.value type.valueType) a))
    (hsecond : heap[pSecond]? = some (.leaf (.value type.valueType) b)) :
    operatorCalculation floats op heap pFirst pSecond =
      (integerCalculation op type a b).map fun value => heap.allocate type.valueType value := by
  have hmem : (DataType.leaf (.value type.valueType) a).getClass ∈ op.classes :=
    getClass_mem_classes op type
  have hclass : (DataType.leaf (.value type.valueType) a).getClass =
      (DataType.leaf (.value type.valueType) b).getClass := rfl
  rw [operatorCalculation, hfirst, hsecond]
  simp only [Option.bind_eq_bind, Option.bind_some, hclass, ne_eq, not_true_eq_false, if_false]
  rw [if_pos (hclass ▸ hmem), ValueType.cast_self, Option.bind_some, calculation_valueType]
  cases integerCalculation op type a b <;> rfl

theorem two_pow_dvd_promoted : ((2 : ℤ) ^ type.width) ∣ 2 ^ type.promoted.width := by
  cases type <;> decide

theorem integerCalculation_of_fits (h : op.Fits type (type.toInt a) (type.toInt b)) :
    ∃ value, integerCalculation op type a b = some value ∧
      type.toInt value % 2 ^ type.width =
        op.exact (type.toInt a) (type.toInt b) % 2 ^ type.width := by
  have hdefined := (ArithmeticOperator.defined_iff (type.inRange_toInt a) (type.inRange_toInt b)
    op).mpr h
  rw [integerCalculation, ArithmeticOperator.evaluate_of_defined hdefined]
  refine ⟨_, rfl, ?_⟩
  rw [type.toInt_ofInt_emod]
  split
  · rfl
  · exact Int.emod_emod_of_dvd _ (two_pow_dvd_promoted type)

end

/-- The operators by their names. -/
def ArithmeticOperator.calculate (floats : FloatOperators) :
    ArithmeticOperator → DataHeap → ℕ → ℕ → Option (Option ℕ × DataHeap)
  | addition => DataOperatorAddition.calculate floats
  | subtraction => DataOperatorSubtraction.calculate floats
  | multiplication => DataOperatorMultiplication.calculate floats
  | division => DataOperatorDivision.calculate floats
  | modulo => DataOperatorModulo.calculate floats

theorem calculate_eq (floats : FloatOperators) (op : ArithmeticOperator) :
    op.calculate floats = operatorCalculation floats op := by
  cases op <;> rfl

/-- An arithmetic operator on two objects of an integer class returns a new object of the class with
the result modulo its width where the operands fit it, and is undefined otherwise. -/
theorem arithmeticOperators_exact (floats : FloatOperators) (op : ArithmeticOperator)
    (heap : DataHeap) (pFirst pSecond : ℕ) (type : IntegerClass) (a b : type.valueType.Value)
    (hfirst : heap[pFirst]? = some (.leaf (.value type.valueType) a))
    (hsecond : heap[pSecond]? = some (.leaf (.value type.valueType) b)) :
    (op.Fits type (type.toInt a) (type.toInt b) →
        ReturnsInteger (op.calculate floats heap pFirst pSecond) heap type
          (op.exact (type.toInt a) (type.toInt b))) ∧
      (¬ op.Fits type (type.toInt a) (type.toInt b) →
        op.calculate floats heap pFirst pSecond = none) := by
  rw [calculate_eq, operatorCalculation_eq floats op type a b hfirst hsecond]
  constructor
  · intro h
    obtain ⟨value, hvalue, hmod⟩ := integerCalculation_of_fits op type a b h
    rw [hvalue]
    exact ⟨value, rfl, hmod⟩
  · intro h
    rw [← ArithmeticOperator.defined_iff (type.inRange_toInt a) (type.inRange_toInt b) op] at h
    rw [integerCalculation, ArithmeticOperator.evaluate_of_not_defined h]
    rfl

/-- The largest `UInt16` by itself is too large for `int`. -/
theorem not_arithmeticOperators_total :
    ¬ ∀ (floats : FloatOperators) (op : ArithmeticOperator) (heap : DataHeap) (pFirst pSecond : ℕ)
        (type : IntegerClass) (a b : type.valueType.Value),
      heap[pFirst]? = some (.leaf (.value type.valueType) a) →
      heap[pSecond]? = some (.leaf (.value type.valueType) b) →
        op.calculate floats heap pFirst pSecond ≠ none := by
  intro h
  have hread : [DataType.leaf (.value .uint16) (65535 : UInt16)][0]? =
      some (.leaf (.value .uint16) (65535 : UInt16)) := rfl
  refine h ⟨fun _ x _ => x, fun _ x _ => x⟩ .multiplication _ 0 0 .uint16 _ _ hread hread ?_
  have hundefined : integerCalculation .multiplication .uint16 (65535 : UInt16) (65535 : UInt16) =
      none := by decide
  rw [calculate_eq,
    operatorCalculation_eq _ _ .uint16 (65535 : UInt16) (65535 : UInt16) hread hread, hundefined]
  rfl

theorem arithmeticOperators_exact_least :
    ReturnsInteger (ArithmeticOperator.division.calculate ⟨fun _ x _ => x, fun _ x _ => x⟩
        [.leaf (.value .int8) (-128 : Int8), .leaf (.value .int8) (-1 : Int8)] 0 1)
        [.leaf (.value .int8) (-128 : Int8), .leaf (.value .int8) (-1 : Int8)] .int8 128 ∧
      ArithmeticOperator.modulo.calculate ⟨fun _ x _ => x, fun _ x _ => x⟩
        [.leaf (.value .uint64) (7 : UInt64), .leaf (.value .uint64) (0 : UInt64)] 0 1 = none :=
  ⟨(arithmeticOperators_exact ⟨fun _ x _ => x, fun _ x _ => x⟩ .division
      [.leaf (.value .int8) (-128 : Int8), .leaf (.value .int8) (-1 : Int8)] 0 1 .int8
      (-128 : Int8) (-1 : Int8) rfl rfl).1 ⟨by decide, by decide⟩,
    (arithmeticOperators_exact ⟨fun _ x _ => x, fun _ x _ => x⟩ .modulo
      [.leaf (.value .uint64) (7 : UInt64), .leaf (.value .uint64) (0 : UInt64)] 0 1 .uint64
      (7 : UInt64) (0 : UInt64) rfl rfl).2 fun h => h.1 (by decide)⟩

end SRCommon
