import SRCommon.Common.HashManager

/-!
# Numbers read out of a view

`LexicalCast` passes the pointer of its view to `std::stoi` and `std::stoll`,
which read on to the zero byte behind the view, and reads the unsigned types as
signed ones.
-/

namespace SRCommon

/-- The integers that are parsed as numbers. -/
inductive IntegerType where
  | int16
  | uint16
  | int32
  | uint32
  | int64
  | uint64
  deriving DecidableEq

/-- The characters that a view covers, and what follows them in the buffer. -/
def StringView.into (text rest : Text) : StringView := ⟨text ++ rest, text.length, by simp⟩

def stoi (str : Text) : Option ℤ := Text.sto 32 str

def stoll (str : Text) : Option ℤ := Text.sto 64 str

namespace IntegerType

def bits : IntegerType → ℕ
  | int16 | uint16 => 16
  | int32 | uint32 => 32
  | int64 | uint64 => 64

def isSigned : IntegerType → Bool
  | int16 | int32 | int64 => true
  | uint16 | uint32 | uint64 => false

/-- The values of the type. -/
def Holds (T : IntegerType) (v : ℤ) : Prop :=
  if T.isSigned then -2 ^ (T.bits - 1) ≤ v ∧ v < 2 ^ (T.bits - 1) else 0 ≤ v ∧ v < 2 ^ T.bits

instance (T : IntegerType) (v : ℤ) : Decidable (T.Holds v) :=
  inferInstanceAs (Decidable (if T.isSigned then _ else _))

/-- `static_cast` to the type. -/
def cast (T : IntegerType) (i : ℤ) : ℤ :=
  if T.isSigned then i.bmod (2 ^ T.bits) else i % 2 ^ T.bits

/-- The numbers of the function that parses the type. -/
def parsedBits : IntegerType → ℕ
  | int64 | uint64 => 64
  | _ => 32

end IntegerType

open IntegerType in
/-- The size of the view is not used. An exception is caught, and gives zero. -/
def lexicalCast (T : IntegerType) (str : StringView) : Option ℤ :=
  (stringOfData str.memory).map fun data => Option.getD (match T with
    | int16 => (stoi data).map int16.cast
    | uint16 => (stoi data).map uint16.cast
    | int32 => stoi data
    | int64 => stoll data
    | uint32 => (stoi data).map uint32.cast
    | uint64 => (stoll data).map uint64.cast) 0

namespace IntegerType

/-- The number that is written by the text of `v` and the digits behind it. -/
def seen (v : ℤ) (digits : Text) : ℤ :=
  v * 10 ^ digits.length +
    if 0 ≤ v then (Text.digitsValue digits : ℤ) else -(Text.digitsValue digits : ℤ)

/-- The number is one of `int` or of `long long`. -/
def Parsable (T : IntegerType) (i : ℤ) : Prop :=
  -2 ^ (T.parsedBits - 1) ≤ i ∧ i < 2 ^ (T.parsedBits - 1)

/-- The digits behind the text do not change the value of the type, or they make the number too
great where the value is the zero that an exception gives. -/
def Unharmed (T : IntegerType) (v : ℤ) (digits : Text) : Prop :=
  (T.Parsable (seen v digits) ∧ 2 ^ T.bits ∣ seen v digits - v) ∨
    (¬T.Parsable (seen v digits) ∧ v = 0)

instance (T : IntegerType) (i : ℤ) : Decidable (T.Parsable i) :=
  inferInstanceAs (Decidable (_ ∧ _))

theorem cast_eq_iff {T : IntegerType} {v : ℤ} (hv : T.Holds v) (i : ℤ) :
    T.cast i = v ↔ 2 ^ T.bits ∣ i - v := by
  have hbmod := Int.bmod_eq_iff (a := i) (c := v) (Nat.two_pow_pos T.bits)
  rw [Holds] at hv
  rw [cast]
  cases T <;> simp only [bits, isSigned, Bool.false_eq_true, if_true, if_false] at * <;> omega

/-- `int` and `long long` are read as they are. -/
theorem cast_of_holds {T : IntegerType} {v : ℤ} (hv : T.Holds v) : T.cast v = v := by
  rw [cast_eq_iff hv, Int.sub_self]
  exact Int.dvd_zero _

theorem sto_map_cast {T : IntegerType} {width : ℕ}
    (hT : ∀ i, -2 ^ (width - 1) ≤ i ∧ i < 2 ^ (width - 1) → T.Holds i) (text : Text) :
    (Text.sto width text).map T.cast = Text.sto width text := by
  cases h : Text.sto width text with
  | none => rfl
  | some i =>
      obtain ⟨-, hrange⟩ := Option.filter_eq_some_iff.mp h
      exact congrArg some (cast_of_holds (hT i (of_decide_eq_true hrange)))

theorem lexicalCast_eq (T : IntegerType) {str : StringView} (h : 0 ∈ str.memory) :
    lexicalCast T str =
      some (((Text.sto T.parsedBits (Text.cstr str.memory)).map T.cast).getD 0) := by
  rw [lexicalCast, stringOfData, if_pos h, Option.map_some]
  cases T with
  | int32 =>
      rw [sto_map_cast fun _ => id]
      rfl
  | int64 =>
      rw [sto_map_cast fun _ => id]
      rfl
  | _ => rfl

/-- With no digit behind the text, the upper halves of the wide unsigned types are lost. -/
theorem unharmed_nil {T : IntegerType} {v : ℤ} (hv : T.Holds v) :
    T.Unharmed v [] ↔ v < 2 ^ (T.parsedBits - 1) := by
  have hseen : seen v [] = v := by simp [seen, Text.digitsValue]
  rw [Unharmed, Parsable, hseen, Int.sub_self]
  rw [Holds] at hv
  cases T <;>
    simp only [parsedBits, bits, isSigned, Bool.false_eq_true, if_true, if_false] at * <;> omega

/-- Digits behind a text take it away from zero. -/
theorem seen_ne_self {v : ℤ} {digits : Text} (hdigits : digits ≠ []) :
    (0 < v → v < seen v digits) ∧ (v < 0 → seen v digits < v) := by
  have hlength := List.length_pos_of_ne_nil hdigits
  have hten : (10 : ℤ) ≤ 10 ^ digits.length := by
    exact_mod_cast Nat.le_self_pow hlength.ne' 10
  rw [seen]
  constructor
  · intro hpos
    have := Int.mul_le_mul_of_nonneg_left hten hpos.le
    rw [if_pos hpos.le]
    omega
  · intro hneg
    have := Int.mul_le_mul_of_nonpos_left hneg.le hten
    rw [if_neg (by omega)]
    omega

/-- Digits behind the text of a wide type are harmless only where the value is zero. -/
theorem unharmed_digits {T : IntegerType} {v : ℤ} (hv : T.Holds v) (hbits : T.bits = T.parsedBits)
    {digits : Text} (hdigits : digits ≠ []) :
    T.Unharmed v digits ↔
      v = 0 ∧ (Text.digitsValue digits = 0 ∨ 2 ^ (T.parsedBits - 1) ≤ Text.digitsValue digits) := by
  by_cases hzero : v = 0
  · have hseen : seen v digits = Text.digitsValue digits := by
      rw [seen, hzero, Int.zero_mul, Int.zero_add]
      rfl
    rw [Unharmed, Parsable, hseen]
    cases T <;> cases hbits <;> simp only [parsedBits, bits] <;> omega
  · obtain ⟨hpos, hneg⟩ := seen_ne_self (v := v) hdigits
    rw [Unharmed, Parsable]
    generalize seen v digits = w at *
    rw [Holds] at hv
    refine iff_of_false ?_ fun h => hzero h.1
    rintro (⟨hparse, q, hq⟩ | ⟨-, h⟩)
    · obtain hq0 | rfl | hq0 := lt_trichotomy q 0 <;> cases T <;> cases hbits <;>
        simp only [parsedBits, bits, isSigned, Bool.false_eq_true, if_true, if_false] at * <;> omega
    · exact hzero h

theorem zero_notMem_intText (v : ℤ) : 0 ∉ Text.intText v := by
  cases v with
  | ofNat n => exact Text.notMem_natText (by decide)
  | negSucc n =>
      rw [Text.intText, List.mem_cons, not_or]
      exact ⟨by decide, Text.notMem_natText (by decide)⟩

theorem cstr_append {text : Text} (h : 0 ∉ text) (rest : Text) :
    Text.cstr (text ++ rest) = text ++ Text.cstr rest := by
  apply List.takeWhile_append_of_pos
  intro c hc
  simpa using ne_of_mem_of_not_mem hc h

theorem takeWhile_cstr (rest : Text) :
    (Text.cstr rest).takeWhile Text.isDigit = rest.takeWhile Text.isDigit := by
  rw [Text.cstr, List.takeWhile_takeWhile]
  congr 1
  funext c
  by_cases hc : c = 0
  · subst hc
    decide
  · simp [hc]

theorem scanInt_intText_append (v : ℤ) (rest : Text) :
    Text.scanInt (Text.intText v ++ rest) = some (seen v (rest.takeWhile Text.isDigit)) := by
  cases v with
  | ofNat n =>
      have hn : 0 ≤ Int.ofNat n := Int.natCast_nonneg n
      rw [Text.intText, Text.scanInt_natText_append, Text.scanNat_natText_append, seen, if_pos hn,
        Option.map_some]
      simp only [Int.ofNat_eq_natCast]
      push_cast
      rfl
  | negSucc n =>
      rw [Text.intText, List.cons_append, Text.scanInt_minus, Text.scanNat_natText_append, seen,
        if_neg (by omega), Option.map_some, Int.negSucc_eq]
      push_cast
      rw [Int.neg_add, Int.neg_mul]

theorem sto_intText_append (T : IntegerType) (v : ℤ) (rest : Text) :
    Text.sto T.parsedBits (Text.cstr (Text.intText v ++ rest)) =
      if T.Parsable (seen v (rest.takeWhile Text.isDigit)) then
        some (seen v (rest.takeWhile Text.isDigit))
      else none := by
  rw [Text.sto, cstr_append (zero_notMem_intText v), scanInt_intText_append, takeWhile_cstr,
    Option.filter_some]
  simp only [decide_eq_true_eq]
  rfl

end IntegerType

end SRCommon
