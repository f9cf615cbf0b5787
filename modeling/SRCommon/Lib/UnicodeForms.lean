import Mathlib.Algebra.Group.Nat.Defs
import Mathlib.Data.List.Basic
import Mathlib.Tactic.Common

/-!
# Encoding forms of Unicode

A form says which sequences of code units have the shape of a code point. A
sequence is well formed when it is the shortest one for a scalar value.
-/

namespace Unicode

/-- In range, and no surrogate. -/
def IsScalar (c : ℕ) : Prop := c ≤ 0x10FFFF ∧ ¬ (0xD800 ≤ c ∧ c ≤ 0xDFFF)

inductive Utf8Form : List ℕ → ℕ → Prop
  | one (a : ℕ) : a < 2 ^ 7 → Utf8Form [a] a
  | two (a b : ℕ) : a < 2 ^ 5 → b < 2 ^ 6 → Utf8Form [0xC0 + a, 0x80 + b] (a * 2 ^ 6 + b)
  | three (a b c : ℕ) : a < 2 ^ 4 → b < 2 ^ 6 → c < 2 ^ 6 →
      Utf8Form [0xE0 + a, 0x80 + b, 0x80 + c] (a * 2 ^ 12 + b * 2 ^ 6 + c)
  | four (a b c d : ℕ) : a < 2 ^ 3 → b < 2 ^ 6 → c < 2 ^ 6 → d < 2 ^ 6 →
      Utf8Form [0xF0 + a, 0x80 + b, 0x80 + c, 0x80 + d]
        (a * 2 ^ 18 + b * 2 ^ 12 + c * 2 ^ 6 + d)

inductive Utf16Form : List ℕ → ℕ → Prop
  | one (a : ℕ) : a < 2 ^ 16 → Utf16Form [a] a
  | pair (a b : ℕ) : a < 2 ^ 10 → b < 2 ^ 10 →
      Utf16Form [0xD800 + a, 0xDC00 + b] (a * 2 ^ 10 + b + 0x10000)

inductive Utf32Form : List ℕ → ℕ → Prop
  | one (a : ℕ) : a < 2 ^ 32 → Utf32Form [a] a

/-- The shortest sequence of the form for a scalar value. -/
structure WellFormed (Form : List ℕ → ℕ → Prop) (us : List ℕ) (c : ℕ) : Prop where
  form : Form us c
  scalar : IsScalar c
  shortest : ∀ us', Form us' c → us.length ≤ us'.length

/-- The well-formed sequences of some scalar values in a row. -/
inductive Encodes (Form : List ℕ → ℕ → Prop) : List ℕ → List ℕ → Prop
  | nil : Encodes Form [] []
  | cons {us vs : List ℕ} {c : ℕ} {cs : List ℕ} :
      WellFormed Form us c → Encodes Form vs cs → Encodes Form (us ++ vs) (c :: cs)

section

variable {Form : List ℕ → ℕ → Prop} {units : ℕ → List ℕ}

/-- Where every other sequence of a code point is longer than the one that is given, that one is
the shortest. -/
theorem wellFormed_iff (hform : ∀ c, IsScalar c → Form (units c) c)
    (hother : ∀ us c, Form us c → us = units c ∨ (units c).length < us.length) {us : List ℕ}
    {c : ℕ} : WellFormed Form us c ↔ IsScalar c ∧ us = units c := by
  constructor
  · intro h
    have hshort := h.shortest (units c) (hform c h.scalar)
    exact ⟨h.scalar, (hother us c h.form).resolve_right (Nat.not_lt.mpr hshort)⟩
  · rintro ⟨hscalar, rfl⟩
    refine ⟨hform c hscalar, hscalar, fun us' hform' => ?_⟩
    obtain rfl | hlt := hother us' c hform'
    · exact Nat.le_refl _
    · exact Nat.le_of_lt hlt

theorem encodes_iff (h : ∀ us c, WellFormed Form us c ↔ IsScalar c ∧ us = units c) {us cs : List ℕ} :
    Encodes Form us cs ↔ (∀ c ∈ cs, IsScalar c) ∧ us = cs.flatMap units := by
  constructor
  · intro hus
    induction hus with
    | nil => simp
    | cons hwell _ ih =>
        obtain ⟨hscalar, rfl⟩ := (h _ _).mp hwell
        obtain ⟨hscalars, rfl⟩ := ih
        exact ⟨List.forall_mem_cons.mpr ⟨hscalar, hscalars⟩, rfl⟩
  · rintro ⟨hscalars, rfl⟩
    induction cs with
    | nil => exact .nil
    | cons c cs ih =>
        obtain ⟨hscalar, hscalars⟩ := List.forall_mem_cons.mp hscalars
        exact .cons ((h _ _).mpr ⟨hscalar, rfl⟩) (ih hscalars)

end

/-! ## The sequences by size -/

def utf8Units (c : ℕ) : List ℕ :=
  if c ≤ 0x7F then [c]
  else if c ≤ 0x7FF then [0xC0 + c / 2 ^ 6, 0x80 + c % 2 ^ 6]
  else if c ≤ 0xFFFF then [0xE0 + c / 2 ^ 12, 0x80 + c / 2 ^ 6 % 2 ^ 6, 0x80 + c % 2 ^ 6]
  else [0xF0 + c / 2 ^ 18, 0x80 + c / 2 ^ 12 % 2 ^ 6, 0x80 + c / 2 ^ 6 % 2 ^ 6, 0x80 + c % 2 ^ 6]

def utf16Units (c : ℕ) : List ℕ :=
  if c ≤ 0xFFFF then [c]
  else [0xD800 + (c - 0x10000) / 2 ^ 10, 0xDC00 + (c - 0x10000) % 2 ^ 10]

def utf32Units (c : ℕ) : List ℕ := [c]

theorem utf8Form_utf8Units {c : ℕ} (h : IsScalar c) : Utf8Form (utf8Units c) c := by
  have hle := h.1
  rw [utf8Units]
  split
  · exact .one c (by omega)
  split
  · have hform := Utf8Form.two (c / 2 ^ 6) (c % 2 ^ 6) (by omega) (by omega)
    rwa [show c / 2 ^ 6 * 2 ^ 6 + c % 2 ^ 6 = c by omega] at hform
  split
  · have hform := Utf8Form.three (c / 2 ^ 12) (c / 2 ^ 6 % 2 ^ 6) (c % 2 ^ 6) (by omega) (by omega)
      (by omega)
    rwa [show c / 2 ^ 12 * 2 ^ 12 + c / 2 ^ 6 % 2 ^ 6 * 2 ^ 6 + c % 2 ^ 6 = c by omega] at hform
  · have hform := Utf8Form.four (c / 2 ^ 18) (c / 2 ^ 12 % 2 ^ 6) (c / 2 ^ 6 % 2 ^ 6) (c % 2 ^ 6)
      (by omega) (by omega) (by omega) (by omega)
    rwa [show c / 2 ^ 18 * 2 ^ 18 + c / 2 ^ 12 % 2 ^ 6 * 2 ^ 12 + c / 2 ^ 6 % 2 ^ 6 * 2 ^ 6 +
      c % 2 ^ 6 = c by omega] at hform

/-- Every byte sequence that is not longer than need be has the bytes that the size asks for. -/
theorem eq_utf8Units_or_lt {us : List ℕ} {c : ℕ} (h : Utf8Form us c) :
    us = utf8Units c ∨ (utf8Units c).length < us.length := by
  cases h with
  | one a ha =>
      rw [utf8Units, if_pos (by omega)]
      exact Or.inl rfl
  | two a b ha hb =>
      rw [utf8Units]
      split
      · exact Or.inr (by simp)
      rw [if_pos (by omega)]
      refine Or.inl ?_
      congr <;> omega
  | three a b c ha hb hc =>
      rw [utf8Units]
      split
      · exact Or.inr (by simp)
      split
      · exact Or.inr (by simp)
      rw [if_pos (by omega)]
      refine Or.inl ?_
      congr <;> omega
  | four a b c d ha hb hc hd =>
      rw [utf8Units]
      split
      · exact Or.inr (by simp)
      split
      · exact Or.inr (by simp)
      split
      · exact Or.inr (by simp)
      refine Or.inl ?_
      congr <;> omega

theorem wellFormed_utf8_iff (us : List ℕ) (c : ℕ) :
    WellFormed Utf8Form us c ↔ IsScalar c ∧ us = utf8Units c :=
  wellFormed_iff (fun _ => utf8Form_utf8Units) fun _ _ => eq_utf8Units_or_lt

theorem wellFormed_utf16_iff (us : List ℕ) (c : ℕ) :
    WellFormed Utf16Form us c ↔ IsScalar c ∧ us = utf16Units c := by
  refine wellFormed_iff (fun c hc => ?_) fun us c h => Or.inl ?_
  · have hle := hc.1
    rw [utf16Units]
    split
    · exact .one c (by omega)
    · have hform := Utf16Form.pair ((c - 0x10000) / 2 ^ 10) ((c - 0x10000) % 2 ^ 10) (by omega)
        (by omega)
      rwa [Nat.div_add_mod', Nat.sub_add_cancel (by omega)] at hform
  · cases h with
    | one a ha => rw [utf16Units, if_pos (by omega)]
    | pair a b ha hb =>
        rw [utf16Units, if_neg (by omega), Nat.add_sub_cancel]
        simp only [List.cons.injEq, and_true]
        omega

theorem wellFormed_utf32_iff (us : List ℕ) (c : ℕ) :
    WellFormed Utf32Form us c ↔ IsScalar c ∧ us = utf32Units c := by
  refine wellFormed_iff (fun c hc => ?_) fun us c h => Or.inl ?_
  · have hle := hc.1
    exact .one c (by omega)
  · cases h
    rfl

end Unicode
