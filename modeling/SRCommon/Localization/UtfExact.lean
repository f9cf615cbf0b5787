import SRCommon.Lib.UnicodeForms
import SRCommon.Localization.Utf

/-!
# Conversion is exact

What `Decode` accepts at a place is the shortest sequence of a scalar value
there, and nothing else.
-/

namespace SRCommon

namespace Utf

open Unicode

theorem isValidCodePoint_iff (c : CodePoint) : IsValidCodePoint c ↔ IsScalar c.toNat := by
  simp only [IsValidCodePoint, IsScalar, gt_iff_lt, UInt32.lt_iff_toNat_lt, UInt32.le_iff_toNat_le,
    UInt32.reduceToNat]
  grind

theorem not_isValidCodePoint_illegal : ¬ IsValidCodePoint Illegal := by decide

theorem not_isValidCodePoint_incomplete : ¬ IsValidCodePoint Incomplete := by decide

/-! ## Bits -/

theorem toNat_shiftLeft_or {c b k : UInt32} (hk : k.toNat < 32) (hb : b.toNat < 2 ^ k.toNat)
    (hc : c.toNat * 2 ^ k.toNat < 2 ^ 32) :
    ((c <<< k) ||| b).toNat = c.toNat * 2 ^ k.toNat + b.toNat := by
  rw [UInt32.toNat_or, UInt32.toNat_shiftLeft, Nat.mod_eq_of_lt hk, Nat.shiftLeft_eq,
    Nat.mod_eq_of_lt hc, Nat.mul_comm, Nat.two_pow_add_eq_or_of_lt hb]

/-- Marking bits above those of a value. -/
theorem toNat_or_mark {x mark : UInt32} {k m : ℕ} (hmark : mark.toNat = 2 ^ k * m)
    (hx : x.toNat < 2 ^ k) : (x ||| mark).toNat = mark.toNat + x.toNat := by
  rw [UInt32.toNat_or, hmark, Nat.or_comm, Nat.two_pow_add_eq_or_of_lt hx]

theorem toNat_and_mask {x mask : UInt32} {k : ℕ} (hmask : mask.toNat = 2 ^ k - 1) :
    (x &&& mask).toNat = x.toNat % 2 ^ k := by
  rw [UInt32.toNat_and, hmask, Nat.and_two_pow_sub_one_eq_mod]

theorem toNat_shiftRight (x : CodePoint) (k : UInt32) (hk : k.toNat < 32) :
    (x >>> k).toNat = x.toNat / 2 ^ k.toNat := by
  rw [UInt32.toNat_shiftRight, Nat.mod_eq_of_lt hk, Nat.shiftRight_eq_div_pow]

/-! ## UTF-8 -/

namespace Utf8

def push (c : CodePoint) (tmp : UInt8) : CodePoint := (c <<< 6) ||| (tmp.toUInt32 &&& 0x3F)

theorem isTrail_iff (c : UInt8) : isTrail c ↔ ∃ b < 2 ^ 6, c.toNat = 0x80 + b := by
  have hall : ∀ n < 256, isTrail (UInt8.ofNat n) ↔ 0x80 ≤ n ∧ n < 0xC0 := by decide +kernel
  have hc := hall c.toNat c.toNat_lt
  rw [UInt8.ofNat_toNat] at hc
  rw [hc]
  constructor
  · intro h
    exact ⟨c.toNat - 0x80, by omega, by omega⟩
  · rintro ⟨b, hb, h⟩
    omega

theorem toNat_push {c : CodePoint} {tmp : UInt8} {b : ℕ} (hc : c.toNat < 2 ^ 26)
    (htmp : tmp.toNat = 0x80 + b) (hb : b < 2 ^ 6) :
    (push c tmp).toNat = c.toNat * 2 ^ 6 + b := by
  have hbits : (tmp.toUInt32 &&& 0x3F).toNat = b := by
    rw [toNat_and_mask (k := 6) rfl, UInt8.toNat_toUInt32]
    omega
  have hshift : (6 : UInt32).toNat = 6 := rfl
  rw [push, toNat_shiftLeft_or (by decide) (by rw [hbits, hshift]; exact hb)
    (by rw [hshift]; omega), hbits, hshift]

theorem readRest_eq_ok_iff {n : ℕ} {c c' : CodePoint} {p rest : List UInt8} :
    readRest n c p = (.ok c', rest) ↔
      ∃ tail : List UInt8, tail.length = n ∧ (∀ tmp ∈ tail, isTrail tmp) ∧ p = tail ++ rest ∧
        c' = tail.foldl push c := by
  induction n generalizing c p with
  | zero => 
      rw [readRest]
      constructor
      · intro h
        cases h
        exact ⟨[], rfl, by simp, rfl, rfl⟩
      · rintro ⟨tail, hlength, -, rfl, rfl⟩
        rw [List.length_eq_zero_iff.mp hlength]
        rfl
  | succ n ih =>
      cases p with
      | nil =>
          rw [readRest]
          constructor
          · intro h
            cases h
          · rintro ⟨tail, hlength, -, hp, -⟩
            rw [(List.append_eq_nil_iff.mp hp.symm).1] at hlength
            cases hlength
      | cons tmp p =>
          rw [readRest]
          cases htmp : isTrail tmp with
          | false =>
              constructor
              · intro h
                cases h
              · rintro ⟨tail, hlength, htail, hp, -⟩
                obtain ⟨tmp', tail, rfl⟩ := List.exists_cons_of_length_eq_add_one hlength
                obtain ⟨rfl, -⟩ := List.cons.inj hp
                rw [htail tmp (List.mem_cons_self ..)] at htmp
                cases htmp
          | true =>
              change readRest n (push c tmp) p = (.ok c', rest) ↔ _
              rw [ih]
              constructor
              · rintro ⟨tail, rfl, htail, rfl, rfl⟩
                exact ⟨tmp :: tail, rfl, List.forall_mem_cons.mpr ⟨htmp, htail⟩, rfl, rfl⟩
              · rintro ⟨tail, hlength, htail, hp, rfl⟩
                obtain ⟨tmp', tail, rfl⟩ := List.exists_cons_of_length_eq_add_one hlength
                obtain ⟨rfl, rfl⟩ := List.cons.inj hp
                exact ⟨tail, Nat.succ.inj hlength, (List.forall_mem_cons.mp htail).2, rfl, rfl⟩

theorem trailLength_cases (lead : UInt8) :
    (trailLength lead = 0 ∧ lead.toNat < 0x80) ∨
      (trailLength lead = -1 ∧ (0x80 ≤ lead.toNat ∧ lead.toNat < 0xC2 ∨ 0xF5 ≤ lead.toNat)) ∨
      (trailLength lead = 1 ∧ 0xC2 ≤ lead.toNat ∧ lead.toNat < 0xE0) ∨
      (trailLength lead = 2 ∧ 0xE0 ≤ lead.toNat ∧ lead.toNat < 0xF0) ∨
      (trailLength lead = 3 ∧ 0xF0 ≤ lead.toNat ∧ lead.toNat < 0xF5) := by
  simp only [trailLength, UInt8.lt_iff_toNat_lt, UInt8.le_iff_toNat_le, UInt8.reduceToNat]
  grind

/-- The bits of the first byte. -/
def leadBits (lead : UInt8) (n : ℕ) : CodePoint :=
  lead.toUInt32 &&& ((1 <<< (6 - (n : ℤ)).toNat.toUInt32) - 1)

theorem decode_of_trail {lead : UInt8} {p : List UInt8} {n : ℕ}
    (hn : trailLength lead = (n + 1 : ℕ)) :
    decode (lead :: p) = match readRest (n + 1) (leadBits lead (n + 1)) p with
      | (.error c, p) => (c, p)
      | (.ok c, p) =>
          if !IsValidCodePoint c then (Illegal, p)
          else if width c ≠ (n + 1 : ℕ) + 1 then (Illegal, p)
          else (c, p) := by
  rw [decode]
  dsimp only
  rw [hn, if_neg (by omega), if_neg (by omega)]
  rfl

theorem readRest_error_eq {n : ℕ} {c e : CodePoint} {p rest : List UInt8}
    (h : readRest n c p = (.error e, rest)) : e = Illegal ∨ e = Incomplete := by
  induction n generalizing c p with
  | zero => cases h
  | succ n ih =>
      cases p with
      | nil =>
          cases h
          exact Or.inr rfl
      | cons tmp p =>
          rw [readRest] at h
          split at h
          · cases h
            exact Or.inl rfl
          · exact ih h

theorem readRest_error {n : ℕ} {c e : CodePoint} {p rest : List UInt8}
    (h : readRest n c p = (.error e, rest)) : ¬ IsValidCodePoint e := by
  obtain rfl | rfl := readRest_error_eq h
  · exact not_isValidCodePoint_illegal
  · exact not_isValidCodePoint_incomplete

theorem decode_of_trail_eq_iff {lead : UInt8} {p rest : List UInt8} {n : ℕ} {c : CodePoint}
    (hc : IsValidCodePoint c) (hn : trailLength lead = (n + 1 : ℕ)) :
    decode (lead :: p) = (c, rest) ↔
      readRest (n + 1) (leadBits lead (n + 1)) p = (.ok c, rest) ∧ width c = (n + 1 : ℕ) + 1 := by
  rw [decode_of_trail hn]
  constructor
  · intro h
    split at h
    case h_1 e p' hread =>
      cases h
      exact absurd hc (readRest_error hread)
    case h_2 c' p' hread =>
      split at h
      · cases h
        exact absurd hc not_isValidCodePoint_illegal
      split at h
      · cases h
        exact absurd hc not_isValidCodePoint_illegal
      case isFalse hwidth =>
        cases h
        exact ⟨hread, not_not.mp hwidth⟩
  · rintro ⟨hread, hwidth⟩
    rw [hread]
    dsimp only
    rw [hc, hwidth, if_neg (by decide), if_neg (not_not.mpr rfl)]

theorem decode_eq_iff {lead : UInt8} {p rest : List UInt8} {c : CodePoint}
    (hc : IsValidCodePoint c) :
    decode (lead :: p) = (c, rest) ↔
      (trailLength lead = 0 ∧ c = lead.toUInt32 ∧ rest = p) ∨
        ∃ tail : List UInt8, tail ≠ [] ∧ trailLength lead = tail.length ∧
          (∀ tmp ∈ tail, isTrail tmp) ∧ p = tail ++ rest ∧
          c = tail.foldl push (leadBits lead tail.length) ∧ width c = tail.length + 1 := by
  have hcases : trailLength lead = 0 ∨ trailLength lead = -1 ∨
      ∃ n : ℕ, trailLength lead = (n + 1 : ℕ) := by
    obtain h | h | h | h | h := trailLength_cases lead
    exacts [Or.inl h.1, Or.inr (Or.inl h.1), Or.inr (Or.inr ⟨0, h.1⟩), Or.inr (Or.inr ⟨1, h.1⟩),
      Or.inr (Or.inr ⟨2, h.1⟩)]
  obtain h | h | ⟨n, h⟩ := hcases
  · rw [decode, h]
    constructor
    · intro heq
      cases heq
      exact Or.inl ⟨rfl, rfl, rfl⟩
    · rintro (⟨-, rfl, rfl⟩ | ⟨tail, hne, hlength, -⟩)
      · rfl
      · exact absurd (List.length_eq_zero_iff.mp (by omega)) hne
  · rw [decode, h]
    constructor
    · intro heq
      cases heq
      exact absurd hc not_isValidCodePoint_illegal
    · rintro (⟨heq, -⟩ | ⟨tail, -, hlength, -⟩)
      · cases heq
      · omega
  · rw [decode_of_trail_eq_iff hc h, readRest_eq_ok_iff]
    constructor
    · rintro ⟨⟨tail, hlength, htail, rfl, rfl⟩, hwidth⟩
      have hne : tail ≠ [] := List.ne_nil_of_length_eq_add_one hlength
      rw [← hlength] at h hwidth ⊢
      exact Or.inr ⟨tail, hne, h, htail, rfl, rfl, hwidth⟩
    · rintro (⟨heq, -⟩ | ⟨tail, -, hlength, htail, rfl, rfl, hwidth⟩)
      · rw [heq] at h
        omega
      · have hn : tail.length = n + 1 := by omega
        rw [hn] at hwidth ⊢
        exact ⟨⟨tail, hn, htail, rfl, rfl⟩, hwidth⟩

theorem toNat_leadBits {lead : UInt8} {n : ℕ} (hn : n = 1 ∨ n = 2 ∨ n = 3) :
    (leadBits lead n).toNat = lead.toNat % 2 ^ (6 - n) := by
  obtain rfl | rfl | rfl := hn <;> exact toNat_and_mask rfl

theorem width_eq (c : CodePoint) : width c = (utf8Units c.toNat).length := by
  simp only [width, utf8Units, UInt32.le_iff_toNat_le, UInt32.reduceToNat]
  grind

section

variable {lead t₁ t₂ t₃ : UInt8} {a b₁ b₂ b₃ : ℕ}

theorem toNat_foldl_push_one (hlead : lead.toNat = 0xC0 + a) (ha : a < 2 ^ 5)
    (h₁ : t₁.toNat = 0x80 + b₁) (hb₁ : b₁ < 2 ^ 6) :
    ([t₁].foldl push (leadBits lead 1)).toNat = a * 2 ^ 6 + b₁ := by
  have hbits : (leadBits lead 1).toNat = a := by
    rw [toNat_leadBits (Or.inl rfl)]
    omega
  rw [List.foldl_cons, List.foldl_nil, toNat_push (by omega) h₁ hb₁, hbits]

theorem toNat_foldl_push_two (hlead : lead.toNat = 0xE0 + a) (ha : a < 2 ^ 4)
    (h₁ : t₁.toNat = 0x80 + b₁) (hb₁ : b₁ < 2 ^ 6) (h₂ : t₂.toNat = 0x80 + b₂) (hb₂ : b₂ < 2 ^ 6) :
    ([t₁, t₂].foldl push (leadBits lead 2)).toNat = a * 2 ^ 12 + b₁ * 2 ^ 6 + b₂ := by
  have hbits : (leadBits lead 2).toNat = a := by
    rw [toNat_leadBits (Or.inr (Or.inl rfl))]
    omega
  have hpush : (push (leadBits lead 2) t₁).toNat = a * 2 ^ 6 + b₁ := by
    rw [toNat_push (by omega) h₁ hb₁, hbits]
  rw [List.foldl_cons, List.foldl_cons, List.foldl_nil, toNat_push (by omega) h₂ hb₂, hpush]
  omega

theorem toNat_foldl_push_three (hlead : lead.toNat = 0xF0 + a) (ha : a < 2 ^ 3)
    (h₁ : t₁.toNat = 0x80 + b₁) (hb₁ : b₁ < 2 ^ 6) (h₂ : t₂.toNat = 0x80 + b₂) (hb₂ : b₂ < 2 ^ 6)
    (h₃ : t₃.toNat = 0x80 + b₃) (hb₃ : b₃ < 2 ^ 6) :
    ([t₁, t₂, t₃].foldl push (leadBits lead 3)).toNat =
      a * 2 ^ 18 + b₁ * 2 ^ 12 + b₂ * 2 ^ 6 + b₃ := by
  have hbits : (leadBits lead 3).toNat = a := by
    rw [toNat_leadBits (Or.inr (Or.inr rfl))]
    omega
  have hpush₁ : (push (leadBits lead 3) t₁).toNat = a * 2 ^ 6 + b₁ := by
    rw [toNat_push (by omega) h₁ hb₁, hbits]
  have hpush₂ : (push (push (leadBits lead 3) t₁) t₂).toNat = a * 2 ^ 12 + b₁ * 2 ^ 6 + b₂ := by
    rw [toNat_push (by omega) h₂ hb₂, hpush₁]
    omega
  rw [List.foldl_cons, List.foldl_cons, List.foldl_cons, List.foldl_nil,
    toNat_push (by omega) h₃ hb₃, hpush₂]
  omega

end

/-- What is read behind a lead has the form of the bytes. -/
theorem utf8Form_of_trail {lead : UInt8} {tail : List UInt8} (hne : tail ≠ [])
    (hlead : trailLength lead = tail.length) (htail : ∀ tmp ∈ tail, isTrail tmp) :
    Utf8Form ((lead :: tail).map UInt8.toNat)
      (tail.foldl push (leadBits lead tail.length)).toNat := by
  simp only [isTrail_iff] at htail
  obtain ⟨h, -⟩ | ⟨h, -⟩ | ⟨h, hle, hlt⟩ | ⟨h, hle, hlt⟩ | ⟨h, hle, hlt⟩ := trailLength_cases lead
  · exact absurd (List.length_eq_zero_iff.mp (by omega)) hne
  · omega
  · obtain ⟨t₁, rfl⟩ := List.length_eq_one_iff.mp (show tail.length = 1 by omega)
    obtain ⟨b₁, hb₁, h₁⟩ := htail t₁ (by simp)
    obtain ⟨a, ha⟩ := Nat.exists_eq_add_of_le (Nat.le_trans (by decide : 0xC0 ≤ 0xC2) hle)
    have hform := Utf8Form.two a b₁ (by omega) hb₁
    rw [← toNat_foldl_push_one ha (by omega) h₁ hb₁, ← ha, ← h₁] at hform
    exact hform
  · obtain ⟨t₁, t₂, rfl⟩ := List.length_eq_two.mp (show tail.length = 2 by omega)
    obtain ⟨b₁, hb₁, h₁⟩ := htail t₁ (by simp)
    obtain ⟨b₂, hb₂, h₂⟩ := htail t₂ (by simp)
    obtain ⟨a, ha⟩ := Nat.exists_eq_add_of_le hle
    have hform := Utf8Form.three a b₁ b₂ (by omega) hb₁ hb₂
    rw [← toNat_foldl_push_two ha (by omega) h₁ hb₁ h₂ hb₂, ← ha, ← h₁, ← h₂] at hform
    exact hform
  · obtain ⟨t₁, t₂, t₃, rfl⟩ := List.length_eq_three.mp (show tail.length = 3 by omega)
    obtain ⟨b₁, hb₁, h₁⟩ := htail t₁ (by simp)
    obtain ⟨b₂, hb₂, h₂⟩ := htail t₂ (by simp)
    obtain ⟨b₃, hb₃, h₃⟩ := htail t₃ (by simp)
    obtain ⟨a, ha⟩ := Nat.exists_eq_add_of_le hle
    have hform := Utf8Form.four a b₁ b₂ b₃ (by omega) hb₁ hb₂ hb₃
    rw [← toNat_foldl_push_three ha (by omega) h₁ hb₁ h₂ hb₂ h₃ hb₃, ← ha, ← h₁, ← h₂, ← h₃]
      at hform
    exact hform

theorem decode_append {us rest : List UInt8} {c : CodePoint} (hc : IsValidCodePoint c)
    (h : us.map UInt8.toNat = utf8Units c.toNat) : decode (us ++ rest) = (c, rest) := by
  have hle := ((isValidCodePoint_iff c).mp hc).1
  have hwidth : width c = us.length := by rw [width_eq, ← h, List.length_map]
  rw [utf8Units] at h
  split at h
  · obtain ⟨lead, us, rfl, hlead, h⟩ := List.map_eq_cons_iff.mp h
    obtain rfl := List.map_eq_nil_iff.mp h
    refine (decode_eq_iff hc).mpr (Or.inl ⟨?_, UInt32.toNat_inj.mp hlead.symm, rfl⟩)
    have := trailLength_cases lead
    omega
  split at h
  · obtain ⟨lead, us, rfl, hlead, h⟩ := List.map_eq_cons_iff.mp h
    obtain ⟨t₁, us, rfl, h₁, h⟩ := List.map_eq_cons_iff.mp h
    obtain rfl := List.map_eq_nil_iff.mp h
    have hb₁ : c.toNat % 2 ^ 6 < 2 ^ 6 := Nat.mod_lt _ (by decide)
    refine (decode_eq_iff hc).mpr (Or.inr ⟨[t₁], by simp, ?_, ?_, rfl, ?_, hwidth⟩)
    · have := trailLength_cases lead
      simp only [List.length_cons, List.length_nil]
      omega
    · simp only [List.forall_mem_singleton, isTrail_iff]
      exact ⟨_, hb₁, h₁⟩
    · apply UInt32.toNat_inj.mp
      rw [List.length_singleton, toNat_foldl_push_one hlead (by omega) h₁ hb₁]
      omega
  split at h
  · obtain ⟨lead, us, rfl, hlead, h⟩ := List.map_eq_cons_iff.mp h
    obtain ⟨t₁, us, rfl, h₁, h⟩ := List.map_eq_cons_iff.mp h
    obtain ⟨t₂, us, rfl, h₂, h⟩ := List.map_eq_cons_iff.mp h
    obtain rfl := List.map_eq_nil_iff.mp h
    have hb₁ : c.toNat / 2 ^ 6 % 2 ^ 6 < 2 ^ 6 := Nat.mod_lt _ (by decide)
    have hb₂ : c.toNat % 2 ^ 6 < 2 ^ 6 := Nat.mod_lt _ (by decide)
    refine (decode_eq_iff hc).mpr (Or.inr ⟨[t₁, t₂], by simp, ?_, ?_, rfl, ?_, hwidth⟩)
    · have := trailLength_cases lead
      simp only [List.length_cons, List.length_nil]
      omega
    · simp only [List.forall_mem_cons, List.not_mem_nil, isTrail_iff]
      exact ⟨⟨_, hb₁, h₁⟩, ⟨_, hb₂, h₂⟩, fun _ h => h.elim⟩
    · apply UInt32.toNat_inj.mp
      rw [List.length_cons, List.length_singleton,
        toNat_foldl_push_two hlead (by omega) h₁ hb₁ h₂ hb₂]
      omega
  · obtain ⟨lead, us, rfl, hlead, h⟩ := List.map_eq_cons_iff.mp h
    obtain ⟨t₁, us, rfl, h₁, h⟩ := List.map_eq_cons_iff.mp h
    obtain ⟨t₂, us, rfl, h₂, h⟩ := List.map_eq_cons_iff.mp h
    obtain ⟨t₃, us, rfl, h₃, h⟩ := List.map_eq_cons_iff.mp h
    obtain rfl := List.map_eq_nil_iff.mp h
    have hb₁ : c.toNat / 2 ^ 12 % 2 ^ 6 < 2 ^ 6 := Nat.mod_lt _ (by decide)
    have hb₂ : c.toNat / 2 ^ 6 % 2 ^ 6 < 2 ^ 6 := Nat.mod_lt _ (by decide)
    have hb₃ : c.toNat % 2 ^ 6 < 2 ^ 6 := Nat.mod_lt _ (by decide)
    refine (decode_eq_iff hc).mpr (Or.inr ⟨[t₁, t₂, t₃], by simp, ?_, ?_, rfl, ?_, hwidth⟩)
    · have := trailLength_cases lead
      simp only [List.length_cons, List.length_nil]
      omega
    · simp only [List.forall_mem_cons, List.not_mem_nil, isTrail_iff]
      exact ⟨⟨_, hb₁, h₁⟩, ⟨_, hb₂, h₂⟩, ⟨_, hb₃, h₃⟩, fun _ h => h.elim⟩
    · apply UInt32.toNat_inj.mp
      rw [List.length_cons, List.length_cons, List.length_singleton,
        toNat_foldl_push_three hlead (by omega) h₁ hb₁ h₂ hb₂ h₃ hb₃]
      omega

/-- A code point is decoded exactly where its bytes are. -/
theorem decode_eq_iff_units {p rest : List UInt8} {c : CodePoint} (hc : IsValidCodePoint c) :
    decode p = (c, rest) ↔
      ∃ us : List UInt8, p = us ++ rest ∧ us.map UInt8.toNat = utf8Units c.toNat := by
  constructor
  · intro h
    cases p with
    | nil =>
        cases h
        exact absurd hc not_isValidCodePoint_incomplete
    | cons lead p =>
        obtain ⟨hlead, rfl, rfl⟩ | ⟨tail, hne, hlead, htail, rfl, rfl, hwidth⟩ :=
          (decode_eq_iff hc).mp h
        · have hlt : lead.toNat < 0x80 := by
            have := trailLength_cases lead
            omega
          refine ⟨[lead], rfl, ?_⟩
          rw [utf8Units, UInt8.toNat_toUInt32, if_pos (by omega)]
          rfl
        · refine ⟨lead :: tail, rfl, ?_⟩
          rw [width_eq] at hwidth
          refine (eq_utf8Units_or_lt (utf8Form_of_trail hne hlead htail)).resolve_right fun hlt => ?_
          rw [List.length_map, List.length_cons] at hlt
          omega
  · rintro ⟨us, rfl, h⟩
    exact decode_append hc h

theorem decode_valid_or_error (p : List UInt8) :
    IsValidCodePoint (decode p).1 ∨ (decode p).1 = Illegal ∨ (decode p).1 = Incomplete := by
  rw [decode.eq_def]
  split
  · exact Or.inr (Or.inr rfl)
  case h_2 lead p =>
  dsimp only
  split
  · exact Or.inr (Or.inl rfl)
  split
  case isTrue htrail =>
    have hlead := trailLength_cases lead
    refine Or.inl ((isValidCodePoint_iff _).mpr ?_)
    rw [UInt8.toNat_toUInt32]
    exact ⟨by omega, by omega⟩
  split
  case h_1 e p' hread => exact Or.inr (readRest_error_eq hread)
  case h_2 c p' hread =>
    split
    · exact Or.inr (Or.inl rfl)
    case isFalse hvalid =>
      split
      · exact Or.inr (Or.inl rfl)
      · exact Or.inl (by simpa using hvalid)

/-- A trail byte of some bits. -/
theorem toNat_trailByte (x : CodePoint) :
    ((x &&& 0x3F) ||| 0x80).toUInt8.toNat = 0x80 + x.toNat % 2 ^ 6 := by
  have hbits : (x &&& 0x3F).toNat = x.toNat % 2 ^ 6 := toNat_and_mask rfl
  have hlt : x.toNat % 2 ^ 6 < 2 ^ 6 := Nat.mod_lt _ (by decide)
  rw [UInt32.toNat_toUInt8, toNat_or_mark (k := 6) (m := 2) rfl (by rw [hbits]; exact hlt), hbits]
  exact Nat.mod_eq_of_lt (by change 0x80 + _ < _; omega)

/-- A lead byte of some bits. -/
theorem toNat_leadByte {x mark : CodePoint} {k m : ℕ} (hmark : mark.toNat = 2 ^ k * m)
    (hx : x.toNat < 2 ^ k) (hlt : mark.toNat + 2 ^ k ≤ 2 ^ 8) :
    (x ||| mark).toUInt8.toNat = mark.toNat + x.toNat := by
  rw [UInt32.toNat_toUInt8, toNat_or_mark hmark hx]
  exact Nat.mod_eq_of_lt (by omega)

theorem map_encode {c : CodePoint} (hc : IsScalar c.toNat) :
    (encode c).map UInt8.toNat = utf8Units c.toNat := by
  have hle := hc.1
  have h6 := toNat_shiftRight c 6 (by decide)
  have h12 := toNat_shiftRight c 12 (by decide)
  have h18 := toNat_shiftRight c 18 (by decide)
  simp only [UInt32.reduceToNat] at h6 h12 h18
  simp only [encode, utf8Units, UInt32.le_iff_toNat_le, UInt32.reduceToNat]
  split
  · rw [List.map_singleton, UInt32.toNat_toUInt8, Nat.mod_eq_of_lt (by omega)]
  split
  · rw [List.map_cons, List.map_singleton, toNat_trailByte,
      toNat_leadByte (k := 5) (m := 6) rfl (by omega) (by decide), h6]
    rfl
  split
  · rw [List.map_cons, List.map_cons, List.map_singleton, toNat_trailByte, toNat_trailByte,
      toNat_leadByte (k := 4) (m := 14) rfl (by omega) (by decide), h6, h12]
    rfl
  · rw [List.map_cons, List.map_cons, List.map_cons, List.map_singleton, toNat_trailByte,
      toNat_trailByte, toNat_trailByte,
      toNat_leadByte (k := 3) (m := 30) rfl (by omega) (by decide), h6, h12, h18]
    rfl

end Utf8

/-! ## UTF-16 -/

namespace Utf16

theorem toNat_combineSurrogate {w1 w2 : UInt16} {a b : ℕ} (h1 : w1.toNat = 0xD800 + a)
    (ha : a < 2 ^ 10) (h2 : w2.toNat = 0xDC00 + b) (hb : b < 2 ^ 10) :
    (combineSurrogate w1 w2).toNat = a * 2 ^ 10 + b + 0x10000 := by
  have hmask (w : UInt16) : (w &&& 0x3FF).toUInt32.toNat = w.toNat % 2 ^ 10 := by
    rw [UInt16.toNat_toUInt32, UInt16.toNat_and]
    exact Nat.and_two_pow_sub_one_eq_mod _ 10
  have hhigh : (w1 &&& 0x3FF).toUInt32.toNat = a := by
    rw [hmask]
    omega
  have hlow : (w2 &&& 0x3FF).toUInt32.toNat = b := by
    rw [hmask]
    omega
  have hshift : (10 : UInt32).toNat = 10 := rfl
  rw [combineSurrogate, UInt32.toNat_add,
    toNat_shiftLeft_or (by decide) (by rw [hlow, hshift]; exact hb)
      (by rw [hhigh, hshift]; omega), hhigh, hlow, hshift]
  exact Nat.mod_eq_of_lt (by change _ + 0x10000 < _; omega)

theorem decode_eq_iff {p rest : List UInt16} {c : CodePoint} (hc : IsValidCodePoint c) :
    decode p = (c, rest) ↔
      ∃ us : List UInt16, p = us ++ rest ∧ us.map UInt16.toNat = utf16Units c.toNat := by
  have hscalar := (isValidCodePoint_iff c).mp hc
  have hle := hscalar.1
  constructor
  · intro h
    rw [decode.eq_def] at h
    split at h
    · cases h
      exact absurd hc not_isValidCodePoint_incomplete
    case h_2 w1 current =>
      simp only [Bool.or_eq_true, decide_eq_true_eq, UInt16.lt_iff_toNat_lt, gt_iff_lt,
        UInt16.reduceToNat] at h
      split at h
      · cases h
        refine ⟨[w1], rfl, ?_⟩
        have hlt := w1.toNat_lt
        rw [utf16Units, UInt16.toNat_toUInt32, if_pos (by omega)]
        rfl
      split at h
      · cases h
        exact absurd hc not_isValidCodePoint_illegal
      case isFalse hsurrogate hfirst =>
      cases current with
      | nil =>
          cases h
          exact absurd hc not_isValidCodePoint_incomplete
      | cons w2 current =>
          dsimp only at h
          split at h
          · cases h
            exact absurd hc not_isValidCodePoint_illegal
          case isFalse hsecond =>
          obtain ⟨rfl, rfl⟩ := Prod.mk.inj h
          obtain ⟨a, ha⟩ := Nat.exists_eq_add_of_le (show 0xD800 ≤ w1.toNat by omega)
          obtain ⟨b, hb⟩ := Nat.exists_eq_add_of_le (show 0xDC00 ≤ w2.toNat by omega)
          refine ⟨[w1, w2], rfl, ?_⟩
          have hvalue := toNat_combineSurrogate ha (by omega) hb (by omega)
          rw [hvalue, utf16Units, if_neg (by omega), List.map_cons, List.map_singleton]
          simp only [List.cons.injEq, and_true]
          omega
  · rintro ⟨us, rfl, h⟩
    rw [utf16Units] at h
    split at h
    · obtain ⟨w1, us, rfl, h1, h⟩ := List.map_eq_cons_iff.mp h
      obtain rfl := List.map_eq_nil_iff.mp h
      have hne := hscalar.2
      rw [List.singleton_append, decode.eq_def]
      simp only [Bool.or_eq_true, decide_eq_true_eq, UInt16.lt_iff_toNat_lt, UInt16.reduceToNat]
      rw [if_pos (by omega), Prod.mk.injEq, ← UInt32.toNat_inj]
      exact ⟨h1, rfl⟩
    · obtain ⟨w1, us, rfl, h1, h⟩ := List.map_eq_cons_iff.mp h
      obtain ⟨w2, us, rfl, h2, h⟩ := List.map_eq_cons_iff.mp h
      obtain rfl := List.map_eq_nil_iff.mp h
      rw [List.cons_append, List.singleton_append, decode.eq_def]
      simp only [Bool.or_eq_true, decide_eq_true_eq, UInt16.lt_iff_toNat_lt, gt_iff_lt,
        UInt16.reduceToNat]
      rw [if_neg (by omega), if_neg (by omega), if_neg (by omega), Prod.mk.injEq,
        ← UInt32.toNat_inj, toNat_combineSurrogate h1 (by omega) h2 (by omega)]
      exact ⟨by omega, rfl⟩

theorem decode_valid_or_error (p : List UInt16) :
    IsValidCodePoint (decode p).1 ∨ (decode p).1 = Illegal ∨ (decode p).1 = Incomplete := by
  rw [decode.eq_def]
  simp only [Bool.or_eq_true, decide_eq_true_eq, UInt16.lt_iff_toNat_lt, gt_iff_lt,
    UInt16.reduceToNat, isValidCodePoint_iff]
  split
  · exact Or.inr (Or.inr rfl)
  case h_2 w1 current =>
  have hlt := w1.toNat_lt
  split
  · refine Or.inl ?_
    rw [UInt16.toNat_toUInt32]
    exact ⟨by omega, by omega⟩
  split
  · exact Or.inr (Or.inl rfl)
  case isFalse hsurrogate hfirst =>
  split
  · exact Or.inr (Or.inr rfl)
  case h_2 w2 current =>
  split
  · exact Or.inr (Or.inl rfl)
  case isFalse hsecond =>
  obtain ⟨a, ha⟩ := Nat.exists_eq_add_of_le (show 0xD800 ≤ w1.toNat by omega)
  obtain ⟨b, hb⟩ := Nat.exists_eq_add_of_le (show 0xDC00 ≤ w2.toNat by omega)
  refine Or.inl ?_
  rw [toNat_combineSurrogate ha (by omega) hb (by omega)]
  exact ⟨by omega, by omega⟩

theorem toNat_surrogate {x : CodePoint} (mark : CodePoint) {k m : ℕ} (hmark : mark.toNat = 2 ^ k * m)
    (hx : x.toNat < 2 ^ k) (hlt : mark.toNat + 2 ^ k ≤ 2 ^ 16) :
    (mark ||| x).toUInt16.toNat = mark.toNat + x.toNat := by
  rw [UInt32.toNat_toUInt16, UInt32.or_comm, toNat_or_mark hmark hx]
  exact Nat.mod_eq_of_lt (by omega)

theorem map_encode {c : CodePoint} (hc : IsScalar c.toNat) :
    (encode c).map UInt16.toNat = utf16Units c.toNat := by
  have hle := hc.1
  simp only [encode, utf16Units, UInt32.le_iff_toNat_le, UInt32.reduceToNat]
  split
  · rw [List.map_singleton, UInt32.toNat_toUInt16, Nat.mod_eq_of_lt (by omega)]
  case isFalse hlt =>
  have hsub : (c - 0x10000).toNat = c.toNat - 0x10000 :=
    UInt32.toNat_sub_of_le _ _ (UInt32.le_iff_toNat_le.mpr (Nat.not_le.mp hlt))
  have hhigh : ((c - 0x10000) >>> 10).toNat = (c.toNat - 0x10000) / 2 ^ 10 := by
    rw [toNat_shiftRight _ _ (by decide), hsub]
    rfl
  have hlow : ((c - 0x10000) &&& 0x3FF).toNat = (c.toNat - 0x10000) % 2 ^ 10 := by
    rw [toNat_and_mask (k := 10) rfl, hsub]
  have hfirst := toNat_surrogate 0xD800 (k := 10) (m := 54) rfl
    (show ((c - 0x10000) >>> 10).toNat < 2 ^ 10 by rw [hhigh]; omega) (by decide)
  have hsecond := toNat_surrogate 0xDC00 (k := 10) (m := 55) rfl
    (show ((c - 0x10000) &&& 0x3FF).toNat < 2 ^ 10 by
      rw [hlow]
      exact Nat.mod_lt _ (by decide)) (by decide)
  rw [List.map_cons, List.map_singleton, hfirst, hsecond, hhigh, hlow]
  rfl

end Utf16

/-! ## UTF-32 -/

namespace Utf32

theorem decode_eq_iff {p rest : List UInt32} {c : CodePoint} (hc : IsValidCodePoint c) :
    decode p = (c, rest) ↔
      ∃ us : List UInt32, p = us ++ rest ∧ us.map UInt32.toNat = utf32Units c.toNat := by
  constructor
  · intro h
    cases p with
    | nil =>
        cases h
        exact absurd hc not_isValidCodePoint_incomplete
    | cons u current =>
        rw [decode] at h
        split at h <;> cases h
        · exact absurd hc not_isValidCodePoint_illegal
        · exact ⟨[c], rfl, rfl⟩
  · rintro ⟨us, rfl, h⟩
    obtain ⟨u, us, rfl, hu, h⟩ := List.map_eq_cons_iff.mp h
    obtain rfl := List.map_eq_nil_iff.mp h
    obtain rfl := UInt32.toNat_inj.mp hu
    rw [List.singleton_append, decode, hc]
    rfl

theorem decode_valid_or_error (p : List UInt32) :
    IsValidCodePoint (decode p).1 ∨ (decode p).1 = Illegal ∨ (decode p).1 = Incomplete := by
  cases p with
  | nil => exact Or.inr (Or.inr rfl)
  | cons c current =>
      rw [decode]
      split
      · exact Or.inr (Or.inl rfl)
      case isFalse hvalid => exact Or.inl (by simpa using hvalid)

theorem map_encode (c : CodePoint) : (encode c).map UInt32.toNat = utf32Units c.toNat := rfl

end Utf32

/-! ## Any size -/

namespace UnitSize

def toNat : (size : UnitSize) → size.CharType → ℕ
  | one => UInt8.toNat
  | two => UInt16.toNat
  | four => UInt32.toNat

def Form : UnitSize → List ℕ → ℕ → Prop
  | one => Utf8Form
  | two => Utf16Form
  | four => Utf32Form

def units : UnitSize → ℕ → List ℕ
  | one => utf8Units
  | two => utf16Units
  | four => utf32Units

variable {size : UnitSize}

theorem wellFormed_iff (us : List ℕ) (c : ℕ) :
    WellFormed size.Form us c ↔ IsScalar c ∧ us = size.units c := by
  cases size with
  | one => exact wellFormed_utf8_iff us c
  | two => exact wellFormed_utf16_iff us c
  | four => exact wellFormed_utf32_iff us c

theorem decode_eq_iff {p rest : List size.CharType} {c : CodePoint} (hc : IsValidCodePoint c) :
    size.decode p = (c, rest) ↔
      ∃ us, p = us ++ rest ∧ us.map size.toNat = size.units c.toNat := by
  cases size with
  | one => exact Utf8.decode_eq_iff_units hc
  | two => exact Utf16.decode_eq_iff hc
  | four => exact Utf32.decode_eq_iff hc

/-- `Decode` accepts just the well-formed sequences, and consumes them. -/
theorem decode_eq_iff_wellFormed {p rest : List size.CharType} {c : CodePoint}
    (hc : IsValidCodePoint c) :
    size.decode p = (c, rest) ↔
      ∃ us, p = us ++ rest ∧ WellFormed size.Form (us.map size.toNat) c.toNat := by
  simp only [decode_eq_iff hc, wellFormed_iff, (isValidCodePoint_iff c).mp hc, true_and]

theorem decode_valid_or_error (p : List size.CharType) :
    IsValidCodePoint (size.decode p).1 ∨ (size.decode p).1 = Illegal ∨
      (size.decode p).1 = Incomplete := by
  cases size with
  | one => exact Utf8.decode_valid_or_error p
  | two => exact Utf16.decode_valid_or_error p
  | four => exact Utf32.decode_valid_or_error p

theorem map_encode {c : CodePoint} (hc : IsScalar c.toNat) :
    (size.encode c).map size.toNat = size.units c.toNat := by
  cases size with
  | one => exact Utf8.map_encode hc
  | two => exact Utf16.map_encode hc
  | four => exact Utf32.map_encode c

theorem units_ne_nil (c : ℕ) : size.units c ≠ [] := by
  cases size with
  | one =>
      change utf8Units c ≠ []
      rw [utf8Units]
      split_ifs <;> exact List.cons_ne_nil _ _
  | two =>
      change utf16Units c ≠ []
      rw [utf16Units]
      split_ifs <;> exact List.cons_ne_nil _ _
  | four => exact List.cons_ne_nil _ _

end UnitSize

section

variable {sizeIn sizeOut : UnitSize} {how : EncMethodType}

/-- The loop goes on behind a code point that it has converted. -/
theorem utfToUtfFrom_append {us p : List sizeIn.CharType} {c : CodePoint}
    (hc : IsScalar c.toNat) (h : us.map sizeIn.toNat = sizeIn.units c.toNat)
    (result : List sizeOut.CharType) :
    utfToUtfFrom sizeIn sizeOut how result (us ++ p) =
      utfToUtfFrom sizeIn sizeOut how (result ++ sizeOut.encode c) p := by
  have hvalid := (isValidCodePoint_iff c).mpr hc
  have hdecode : sizeIn.decode (us ++ p) = (c, p) :=
    (UnitSize.decode_eq_iff hvalid).mpr ⟨us, rfl, h⟩
  cases us with
  | nil => exact absurd h.symm (UnitSize.units_ne_nil c.toNat)
  | cons u us =>
      have hne : ¬ (c = Illegal ∨ c = Incomplete) := by
        rintro (rfl | rfl)
        · exact not_isValidCodePoint_illegal hvalid
        · exact not_isValidCodePoint_incomplete hvalid
      rw [List.cons_append] at hdecode ⊢
      rw [utfToUtfFrom.eq_def]
      dsimp only
      rw [hdecode]
      exact if_neg hne

theorem utfToUtfFrom_text_append {us p : List sizeIn.CharType} {cs : List CodePoint}
    (hcs : ∀ c ∈ cs, IsScalar c.toNat)
    (h : us.map sizeIn.toNat = cs.flatMap fun c => sizeIn.units c.toNat)
    (result : List sizeOut.CharType) :
    utfToUtfFrom sizeIn sizeOut how result (us ++ p) =
      utfToUtfFrom sizeIn sizeOut how (result ++ cs.flatMap sizeOut.encode) p := by
  induction cs generalizing us result with
  | nil =>
      rw [List.flatMap_nil, List.map_eq_nil_iff] at h
      rw [h, List.flatMap_nil, List.append_nil, List.nil_append]
  | cons c cs ih =>
      obtain ⟨hc, hcs⟩ := List.forall_mem_cons.mp hcs
      obtain ⟨us₁, us₂, rfl, h₁, h₂⟩ := List.map_eq_append_iff.mp h
      rw [List.append_assoc, utfToUtfFrom_append hc h₁, ih hcs h₂, List.flatMap_cons,
        List.append_assoc]

theorem utfToUtfFrom_eq {us : List sizeIn.CharType} {cs : List CodePoint}
    (hcs : ∀ c ∈ cs, IsScalar c.toNat)
    (h : us.map sizeIn.toNat = cs.flatMap fun c => sizeIn.units c.toNat)
    (result : List sizeOut.CharType) :
    utfToUtfFrom sizeIn sizeOut how result us = result ++ cs.flatMap sizeOut.encode := by
  have htext : utfToUtfFrom sizeIn sizeOut how result (us ++ []) = _ :=
    utfToUtfFrom_text_append hcs h result
  rwa [List.append_nil, utfToUtfFrom] at htext

theorem encodes_encode {size : UnitSize} {cs : List CodePoint}
    (hcs : ∀ c ∈ cs, IsValidCodePoint c) :
    Encodes size.Form ((cs.flatMap size.encode).map size.toNat) (cs.map UInt32.toNat) := by
  have hscalar (c : CodePoint) (hc : c ∈ cs) : IsScalar c.toNat :=
    (isValidCodePoint_iff c).mp (hcs c hc)
  refine (encodes_iff UnitSize.wellFormed_iff).mpr ⟨List.forall_mem_map.mpr hscalar, ?_⟩
  rw [List.flatMap_map, List.map_flatMap]
  exact List.flatMap_congr fun c hc => UnitSize.map_encode (hscalar c hc)

/-- A well-formed text keeps its code points. -/
theorem encodes_utfToUtf {us : List sizeIn.CharType} {cs : List CodePoint}
    (h : Encodes sizeIn.Form (us.map sizeIn.toNat) (cs.map UInt32.toNat)) :
    Encodes sizeOut.Form ((utfToUtf sizeIn sizeOut how us).map sizeOut.toNat)
      (cs.map UInt32.toNat) := by
  obtain ⟨hcs, hus⟩ := (encodes_iff UnitSize.wellFormed_iff).mp h
  refine (encodes_iff UnitSize.wellFormed_iff).mpr ⟨hcs, ?_⟩
  rw [List.forall_mem_map] at hcs
  rw [List.flatMap_map] at hus ⊢
  rw [utfToUtf, utfToUtfFrom_eq hcs hus, List.nil_append, List.map_flatMap]
  exact List.flatMap_congr fun c hc => UnitSize.map_encode (hcs c hc)

end

/-- Valid code points have a well-formed text, which `Encode` gives; conversion keeps the code points
of every well-formed text; and `Decode` returns a code point exactly where a well-formed sequence
of it starts, with just this sequence consumed. -/
theorem utf_exact :
    (∀ (size : UnitSize) (cs : List CodePoint), (∀ c ∈ cs, IsValidCodePoint c) →
        Encodes size.Form ((cs.flatMap size.encode).map size.toNat) (cs.map UInt32.toNat)) ∧
      (∀ (sizeIn sizeOut : UnitSize) (how : EncMethodType) (us : List sizeIn.CharType)
          (cs : List CodePoint),
        Encodes sizeIn.Form (us.map sizeIn.toNat) (cs.map UInt32.toNat) →
          Encodes sizeOut.Form ((utfToUtf sizeIn sizeOut how us).map sizeOut.toNat)
            (cs.map UInt32.toNat)) ∧
      (∀ (size : UnitSize) (p rest : List size.CharType) (c : CodePoint), IsValidCodePoint c →
        (size.decode p = (c, rest) ↔
          ∃ us, p = us ++ rest ∧ WellFormed size.Form (us.map size.toNat) c.toNat)) ∧
      ∀ (size : UnitSize) (p : List size.CharType),
        IsValidCodePoint (size.decode p).1 ∨ (size.decode p).1 = Illegal ∨
          (size.decode p).1 = Incomplete :=
  ⟨fun _ _ hcs => encodes_encode hcs, fun _ _ _ _ _ h => encodes_utfToUtf h,
    fun _ _ _ _ hc => UnitSize.decode_eq_iff_wellFormed hc,
    fun _ p => UnitSize.decode_valid_or_error p⟩

theorem utf_exact_euro :
    Utf8.decode [0xE2, 0x82, 0xAC, 0x41] = (0x20AC, [0x41]) ∧
      Encodes Utf16Form ((utfToUtf .one .two .skip ([0xE2, 0x82, 0xAC] : List UInt8)).map
        UInt16.toNat) [0x20AC] := by
  have hwell : WellFormed Utf8Form [0xE2, 0x82, 0xAC] 0x20AC :=
    (wellFormed_utf8_iff _ _).mpr ⟨⟨by decide, by decide⟩, rfl⟩
  have htext : Encodes Utf8Form [0xE2, 0x82, 0xAC] [0x20AC] := .cons hwell .nil
  exact ⟨(utf_exact.2.2.1 .one ([0xE2, 0x82, 0xAC, 0x41] : List UInt8) ([0x41] : List UInt8) 0x20AC
      (by decide)).mpr ⟨([0xE2, 0x82, 0xAC] : List UInt8), rfl, hwell⟩,
    utf_exact.2.1 .one .two .skip ([0xE2, 0x82, 0xAC] : List UInt8) [0x20AC] htext⟩

end Utf

end SRCommon
