import SRCommon.Localization.UtfExact

/-!
# What is lost behind a truncated code point

`Decode` consumes the unit that shows that a code point is truncated, whatever
this unit is. With it goes the code point it starts: the trail units that are
left of it are illegal by themselves.
-/

namespace SRCommon

namespace Utf

open Unicode

namespace Utf8

theorem not_isTrail_of_trailLength {lead : UInt8} (h : 0 ≤ trailLength lead) : ¬ isTrail lead := by
  intro htrail
  obtain ⟨b, hb, hlead⟩ := (isTrail_iff lead).mp htrail
  have hcases := trailLength_cases lead
  omega

theorem decode_of_isTrail {u : UInt8} (h : isTrail u) (p : List UInt8) :
    decode (u :: p) = (Illegal, p) := by
  obtain ⟨b, hb, hu⟩ := (isTrail_iff u).mp h
  have hneg : trailLength u < 0 := by
    have hcases := trailLength_cases u
    omega
  rw [decode]
  exact if_pos hneg

section

variable {ts : List UInt8} {n : ℕ}

theorem readRest_append_of_not_isTrail (hts : ∀ tmp ∈ ts, isTrail tmp) (hlt : ts.length < n)
    {u : UInt8} (hu : ¬ isTrail u) (c : CodePoint) (p : List UInt8) :
    readRest n c (ts ++ u :: p) = (.error Illegal, p) := by
  induction ts generalizing n c with
  | nil =>
      obtain ⟨n, rfl⟩ := Nat.exists_eq_succ_of_ne_zero (Nat.ne_zero_of_lt hlt)
      rw [List.nil_append, readRest, Bool.not_eq_true _ |>.mp hu]
      rfl
  | cons tmp ts ih =>
      obtain ⟨n, rfl⟩ := Nat.exists_eq_succ_of_ne_zero (Nat.ne_zero_of_lt hlt)
      obtain ⟨htmp, hts⟩ := List.forall_mem_cons.mp hts
      rw [List.cons_append, readRest, htmp]
      exact ih hts (Nat.lt_of_succ_lt_succ hlt) _

theorem readRest_of_length_lt (hts : ∀ tmp ∈ ts, isTrail tmp) (hlt : ts.length < n)
    (c : CodePoint) : readRest n c ts = (.error Incomplete, []) := by
  induction ts generalizing n c with
  | nil =>
      obtain ⟨n, rfl⟩ := Nat.exists_eq_succ_of_ne_zero (Nat.ne_zero_of_lt hlt)
      rfl
  | cons tmp ts ih =>
      obtain ⟨n, rfl⟩ := Nat.exists_eq_succ_of_ne_zero (Nat.ne_zero_of_lt hlt)
      obtain ⟨htmp, hts⟩ := List.forall_mem_cons.mp hts
      rw [readRest, htmp]
      exact ih hts (Nat.lt_of_succ_lt_succ hlt) _

end

/-- The bytes of a code point are a lead and its trail. -/
theorem isTrail_of_decode {lead : UInt8} {tail : List UInt8} {c : CodePoint}
    (hc : IsValidCodePoint c) (h : decode (lead :: tail) = (c, [])) :
    ¬ isTrail lead ∧ (∀ tmp ∈ tail, isTrail tmp) ∧ trailLength lead = tail.length := by
  obtain ⟨hlead, -, rfl⟩ | ⟨tail', -, hlead, htail, rfl, -⟩ := (decode_eq_iff hc).mp h
  · exact ⟨not_isTrail_of_trailLength (Int.le_of_eq hlead.symm), by simp, hlead⟩
  · rw [List.append_nil]
    exact ⟨not_isTrail_of_trailLength (by omega), htail, hlead⟩

section

variable {t s : List UInt8} {c : CodePoint}

theorem decode_truncated (hc : IsValidCodePoint c) (h : decode (t ++ s) = (c, [])) (ht : t ≠ [])
    (hs : s ≠ []) :
    decode t = (Incomplete, []) ∧ ∀ u p, ¬ isTrail u → decode (t ++ u :: p) = (Illegal, p) := by
  obtain ⟨lead, t, rfl⟩ := List.exists_cons_of_ne_nil ht
  rw [List.cons_append] at h
  obtain ⟨-, htrail, hlead⟩ := isTrail_of_decode hc h
  have hts (tmp : UInt8) (hmem : tmp ∈ t) : isTrail tmp := htrail tmp (List.mem_append_left s hmem)
  have hpos := List.length_pos_iff.mpr hs
  rw [List.length_append] at hlead
  have hlead' : trailLength lead = (t.length + s.length - 1 + 1 : ℕ) := by omega
  constructor
  · rw [decode_of_trail hlead', readRest_of_length_lt hts (by omega)]
  · intro u p hu
    rw [List.cons_append, decode_of_trail hlead',
      readRest_append_of_not_isTrail hts (by omega) hu]

end

end Utf8

namespace Utf16

def isSecondSurrogate (x : UInt16) : Bool := 0xDC00 ≤ x && x ≤ 0xDFFF

theorem isSecondSurrogate_iff (x : UInt16) :
    isSecondSurrogate x ↔ 0xDC00 ≤ x.toNat ∧ x.toNat ≤ 0xDFFF := by
  simp only [isSecondSurrogate, Bool.and_eq_true, decide_eq_true_eq, UInt16.le_iff_toNat_le,
    UInt16.reduceToNat]

theorem decode_of_isSecondSurrogate {u : UInt16} (h : isSecondSurrogate u) (p : List UInt16) :
    decode (u :: p) = (Illegal, p) := by
  rw [isSecondSurrogate_iff] at h
  rw [decode.eq_def]
  simp only [Bool.or_eq_true, decide_eq_true_eq, UInt16.lt_iff_toNat_lt, gt_iff_lt,
    UInt16.reduceToNat]
  rw [if_neg (by omega), if_pos (by omega)]

/-- The units of a code point are one that is no second surrogate, and at most one that is. -/
theorem isSecondSurrogate_of_decode {w1 : UInt16} {tail : List UInt16} {c : CodePoint}
    (hc : IsValidCodePoint c) (h : decode (w1 :: tail) = (c, [])) :
    ¬ isSecondSurrogate w1 ∧ (∀ w ∈ tail, isSecondSurrogate w) ∧
      (tail = [] ∨ 0xD800 ≤ w1.toNat ∧ w1.toNat ≤ 0xDBFF ∧ tail.length = 1) := by
  simp only [isSecondSurrogate_iff]
  rw [decode.eq_def] at h
  simp only [Bool.or_eq_true, decide_eq_true_eq, UInt16.lt_iff_toNat_lt, gt_iff_lt,
    UInt16.reduceToNat] at h
  split at h
  · cases h
    exact ⟨by omega, by simp, Or.inl rfl⟩
  split at h
  · cases h
    exact absurd hc not_isValidCodePoint_illegal
  cases tail with
  | nil => exact ⟨by omega, by simp, Or.inl rfl⟩
  | cons w2 tail =>
      dsimp only at h
      split at h
      · cases h
        exact absurd hc not_isValidCodePoint_illegal
      · obtain ⟨-, rfl⟩ := Prod.mk.inj h
        exact ⟨by omega, List.forall_mem_singleton.mpr (by omega), Or.inr ⟨by omega, by omega, rfl⟩⟩

theorem decode_truncated {t s : List UInt16} {c : CodePoint} (hc : IsValidCodePoint c)
    (h : decode (t ++ s) = (c, [])) (ht : t ≠ []) (hs : s ≠ []) :
    decode t = (Incomplete, []) ∧
      ∀ u p, ¬ isSecondSurrogate u → decode (t ++ u :: p) = (Illegal, p) := by
  obtain ⟨w1, t, rfl⟩ := List.exists_cons_of_ne_nil ht
  rw [List.cons_append] at h
  obtain ⟨-, -, hnil | ⟨hle, hle', hlength⟩⟩ := isSecondSurrogate_of_decode hc h
  · exact absurd (List.append_eq_nil_iff.mp hnil).2 hs
  have hpos := List.length_pos_iff.mpr hs
  rw [List.length_append] at hlength
  obtain rfl := List.length_eq_zero_iff.mp (show t.length = 0 by omega)
  have hfirst : ¬ (w1.toNat < 0xD800 ∨ 0xDFFF < w1.toNat) := by omega
  have hfirst' : ¬ 0xDBFF < w1.toNat := by omega
  simp only [decode, Bool.or_eq_true, decide_eq_true_eq, UInt16.lt_iff_toNat_lt, gt_iff_lt,
    UInt16.reduceToNat, List.singleton_append]
  constructor
  · rw [if_neg hfirst, if_neg hfirst']
  · intro u p hu
    rw [isSecondSurrogate_iff] at hu
    rw [if_neg hfirst, if_neg hfirst', if_pos (by omega)]

end Utf16

/-! ## Any size -/

namespace UnitSize

/-- Always false for UTF-32. -/
def isTrail : (size : UnitSize) → size.CharType → Bool
  | one => Utf8.isTrail
  | two => Utf16.isSecondSurrogate
  | four => fun _ => false

variable {size : UnitSize}

theorem decode_of_isTrail {u : size.CharType} (h : size.isTrail u) (p : List size.CharType) :
    size.decode (u :: p) = (Illegal, p) := by
  cases size with
  | one => exact Utf8.decode_of_isTrail h p
  | two => exact Utf16.decode_of_isSecondSurrogate h p
  | four => exact absurd h Bool.false_ne_true

theorem isTrail_of_decode {u : size.CharType} {tail : List size.CharType} {c : CodePoint}
    (hc : IsValidCodePoint c) (h : size.decode (u :: tail) = (c, [])) :
    ¬ size.isTrail u ∧ ∀ v ∈ tail, size.isTrail v := by
  cases size with
  | one => exact ⟨(Utf8.isTrail_of_decode hc h).1, (Utf8.isTrail_of_decode hc h).2.1⟩
  | two =>
      exact ⟨(Utf16.isSecondSurrogate_of_decode hc h).1,
        (Utf16.isSecondSurrogate_of_decode hc h).2.1⟩
  | four =>
      obtain ⟨us, hus, hunits⟩ := (UnitSize.decode_eq_iff hc).mp h
      have hlength : us.length = 1 := by
        rw [← List.length_map, hunits]
        rfl
      rw [List.append_nil] at hus
      rw [← hus, List.length_cons] at hlength
      obtain rfl := List.length_eq_zero_iff.mp (Nat.succ.inj hlength)
      exact ⟨Bool.false_ne_true, by simp⟩

/-- The unit behind a truncated code point is consumed with it. -/
theorem decode_truncated {t s : List size.CharType} {c : CodePoint} (hc : IsValidCodePoint c)
    (h : size.decode (t ++ s) = (c, [])) (ht : t ≠ []) (hs : s ≠ []) :
    size.decode t = (Incomplete, []) ∧
      ∀ u p, ¬ size.isTrail u → size.decode (t ++ u :: p) = (Illegal, p) := by
  cases size with
  | one => exact Utf8.decode_truncated hc h ht hs
  | two => exact Utf16.decode_truncated hc h ht hs
  | four =>
      obtain ⟨u, t, rfl⟩ := List.exists_cons_of_ne_nil ht
      obtain ⟨v, s, rfl⟩ := List.exists_cons_of_ne_nil hs
      have htrail := (isTrail_of_decode hc h).2 v (by simp)
      exact absurd htrail Bool.false_ne_true

end UnitSize

/-! ## The loop -/

section

variable {sizeIn sizeOut : UnitSize}

theorem utfToUtfFrom_skip_of_error {u : sizeIn.CharType} {p rest : List sizeIn.CharType}
    {e : CodePoint} (h : sizeIn.decode (u :: p) = (e, rest)) (he : e = Illegal ∨ e = Incomplete)
    (result : List sizeOut.CharType) :
    utfToUtfFrom sizeIn sizeOut .skip result (u :: p) =
      utfToUtfFrom sizeIn sizeOut .skip result rest := by
  rw [utfToUtfFrom.eq_def]
  dsimp only
  rw [h]
  exact if_pos he

theorem utfToUtfFrom_skip_trail {us : List sizeIn.CharType} (hus : ∀ u ∈ us, sizeIn.isTrail u)
    (result : List sizeOut.CharType) (p : List sizeIn.CharType) :
    utfToUtfFrom sizeIn sizeOut .skip result (us ++ p) =
      utfToUtfFrom sizeIn sizeOut .skip result p := by
  induction us with
  | nil => rfl
  | cons u us ih =>
      obtain ⟨hu, hus⟩ := List.forall_mem_cons.mp hus
      rw [List.cons_append,
        utfToUtfFrom_skip_of_error (UnitSize.decode_of_isTrail hu _) (Or.inl rfl)]
      exact ih hus

/-- The units of code points in a row. -/
def IsText (size : UnitSize) (us : List size.CharType) : Prop :=
  ∃ cs : List CodePoint, Encodes size.Form (us.map size.toNat) (cs.map UInt32.toNat)

/-- A part of the units of a code point, from the first one on. -/
def IsTruncated (size : UnitSize) (t : List size.CharType) : Prop :=
  ∃ (c : CodePoint) (s : List size.CharType), IsValidCodePoint c ∧ t ++ s = size.encode c ∧
    t ≠ [] ∧ s ≠ []

theorem isText_iff {size : UnitSize} {us : List size.CharType} :
    IsText size us ↔ ∃ cs : List CodePoint, (∀ c ∈ cs, IsScalar c.toNat) ∧
      us.map size.toNat = cs.flatMap fun c => size.units c.toNat := by
  simp only [IsText, encodes_iff UnitSize.wellFormed_iff, List.forall_mem_map, List.flatMap_map]

theorem IsTruncated.decode {size : UnitSize} {t : List size.CharType} (h : IsTruncated size t) :
    size.decode t = (Incomplete, []) ∧
      ∀ u p, ¬ size.isTrail u → size.decode (t ++ u :: p) = (Illegal, p) := by
  obtain ⟨c, s, hc, henc, ht, hs⟩ := h
  have hdecode : size.decode (t ++ s) = (c, []) :=
    (UnitSize.decode_eq_iff hc).mpr ⟨t ++ s, (List.append_nil _).symm, by
      rw [henc, UnitSize.map_encode ((isValidCodePoint_iff c).mp hc)]⟩
  exact UnitSize.decode_truncated hc hdecode ht hs

/-- The code point behind the truncated one is lost too. -/
theorem utfToUtf_skip {a t b : List sizeIn.CharType} {cs ds : List CodePoint}
    (hcs : ∀ c ∈ cs, IsScalar c.toNat)
    (ha : a.map sizeIn.toNat = cs.flatMap fun c => sizeIn.units c.toNat)
    (ht : IsTruncated sizeIn t) (hds : ∀ c ∈ ds, IsScalar c.toNat)
    (hb : b.map sizeIn.toNat = ds.flatMap fun c => sizeIn.units c.toNat) :
    utfToUtf sizeIn sizeOut .skip (a ++ t ++ b) =
      cs.flatMap sizeOut.encode ++ ds.tail.flatMap sizeOut.encode := by
  have hne : t ≠ [] := by
    obtain ⟨c, s, -, -, hne, -⟩ := ht
    exact hne
  obtain ⟨v, t, rfl⟩ := List.exists_cons_of_ne_nil hne
  obtain ⟨hend, hnext⟩ := ht.decode
  rw [utfToUtf, List.append_assoc, utfToUtfFrom_text_append hcs ha, List.nil_append]
  cases ds with
  | nil =>
      obtain rfl := List.map_eq_nil_iff.mp hb
      rw [List.append_nil, utfToUtfFrom_skip_of_error hend (Or.inr rfl), utfToUtfFrom]
      exact (List.append_nil _).symm
  | cons d ds =>
      obtain ⟨hd, hds⟩ := List.forall_mem_cons.mp hds
      obtain ⟨us, b, rfl, hus, hrest⟩ := List.map_eq_append_iff.mp hb
      have hvalid := (isValidCodePoint_iff d).mpr hd
      have hdecode : sizeIn.decode us = (d, []) :=
        (UnitSize.decode_eq_iff hvalid).mpr ⟨us, (List.append_nil us).symm, hus⟩
      cases us with
      | nil => exact absurd hus.symm (UnitSize.units_ne_nil d.toNat)
      | cons u us =>
          obtain ⟨hu, htrail⟩ := UnitSize.isTrail_of_decode hvalid hdecode
          have hfirst := hnext u (us ++ b) hu
          -- The first unit of `d` is consumed with `t`, the others are illegal one by one.
          rw [List.cons_append] at hfirst ⊢
          rw [List.cons_append, utfToUtfFrom_skip_of_error hfirst (Or.inl rfl),
            utfToUtfFrom_skip_trail htrail, utfToUtfFrom_eq hds hrest, List.tail_cons]

/-- Skipping a truncated code point loses only this if and only if nothing is behind it. -/
theorem skip_loses_only_error_iff {a t b : List sizeIn.CharType} (ha : IsText sizeIn a)
    (ht : IsTruncated sizeIn t) (hb : IsText sizeIn b) :
    utfToUtf sizeIn sizeOut .skip (a ++ t ++ b) =
        utfToUtf sizeIn sizeOut .skip a ++ utfToUtf sizeIn sizeOut .skip b ↔
      b = [] := by
  obtain ⟨cs, hcs, ha⟩ := isText_iff.mp ha
  obtain ⟨ds, hds, hb⟩ := isText_iff.mp hb
  rw [utfToUtf_skip hcs ha ht hds hb, utfToUtf, utfToUtf, utfToUtfFrom_eq hcs ha,
    utfToUtfFrom_eq hds hb, List.nil_append, List.nil_append, List.append_cancel_left_eq]
  cases ds with
  | nil =>
      rw [List.flatMap_nil, List.map_eq_nil_iff] at hb
      exact ⟨fun _ => hb, fun _ => rfl⟩
  | cons d ds =>
      obtain ⟨hd, -⟩ := List.forall_mem_cons.mp hds
      have hout : sizeOut.encode d ≠ [] := by
        intro hnil
        have hmap : (sizeOut.encode d).map sizeOut.toNat = _ := UnitSize.map_encode hd
        rw [hnil] at hmap
        exact UnitSize.units_ne_nil d.toNat hmap.symm
      constructor
      · intro h
        rw [List.tail_cons, List.flatMap_cons, List.self_eq_append_left] at h
        exact absurd h hout
      · rintro rfl
        have hin := (List.append_eq_nil_iff.mp hb.symm).1
        exact absurd hin (UnitSize.units_ne_nil d.toNat)

end

theorem isText_encode {size : UnitSize} {cs : List CodePoint} (hcs : ∀ c ∈ cs, IsValidCodePoint c) :
    IsText size (cs.flatMap size.encode) :=
  ⟨cs, encodes_encode hcs⟩

/-- The first two bytes of the euro sign. -/
theorem isTruncated_euro : IsTruncated .one ([0xE2, 0x82] : List UInt8) :=
  ⟨0x20AC, ([0xAC] : List UInt8), by decide,
    (by decide : ([0xE2, 0x82, 0xAC] : List UInt8) = Utf8.encode 0x20AC), List.cons_ne_nil _ _,
    List.cons_ne_nil _ _⟩

/-- `A`, the first two bytes of the euro sign, and `B`: no `B` comes out. -/
theorem not_skip_loses_only_error :
    ¬ ∀ (sizeIn sizeOut : UnitSize) (a t b : List sizeIn.CharType), IsText sizeIn a →
      IsTruncated sizeIn t → IsText sizeIn b →
        utfToUtf sizeIn sizeOut .skip (a ++ t ++ b) =
          utfToUtf sizeIn sizeOut .skip a ++ utfToUtf sizeIn sizeOut .skip b := by
  intro h
  have ha : ∀ c ∈ [(0x41 : CodePoint)], IsScalar c.toNat :=
    List.forall_mem_singleton.mpr ⟨by decide, by decide⟩
  have hb : ∀ c ∈ [(0x42 : CodePoint)], IsScalar c.toNat :=
    List.forall_mem_singleton.mpr ⟨by decide, by decide⟩
  have hab := h .one .one ([0x41] : List UInt8) ([0xE2, 0x82] : List UInt8) ([0x42] : List UInt8)
    (isText_iff.mpr ⟨_, ha, rfl⟩) isTruncated_euro (isText_iff.mpr ⟨_, hb, rfl⟩)
  have hskip : utfToUtf .one .one .skip
      (([0x41] : List UInt8) ++ ([0xE2, 0x82] : List UInt8) ++ ([0x42] : List UInt8)) =
        ([0x41] : List UInt8) :=
    utfToUtf_skip ha rfl isTruncated_euro hb rfl
  have hconvA : utfToUtf .one .one .skip ([0x41] : List UInt8) = ([0x41] : List UInt8) :=
    utfToUtfFrom_eq ha rfl []
  have hconvB : utfToUtf .one .one .skip ([0x42] : List UInt8) = ([0x42] : List UInt8) :=
    utfToUtfFrom_eq hb rfl []
  have hfalse : ([0x41] : List UInt8) = [0x41] ++ [0x42] :=
    hskip.symm.trans (hab.trans (congrArg₂ List.append hconvA hconvB))
  exact absurd hfalse (by decide)

theorem skip_loses_only_error_iff_euro :
    utfToUtf .one .two .skip (([0x41] : List UInt8) ++ ([0xE2, 0x82] : List UInt8) ++ []) =
        utfToUtf .one .two .skip ([0x41] : List UInt8) ++ utfToUtf .one .two .skip [] ∧
      utfToUtf .one .two .skip
          (([0x41] : List UInt8) ++ ([0xE2, 0x82] : List UInt8) ++ ([0x42] : List UInt8)) ≠
        utfToUtf .one .two .skip ([0x41] : List UInt8) ++
          utfToUtf .one .two .skip ([0x42] : List UInt8) := by
  have hnil : IsText .one ([] : List UInt8) := ⟨[], .nil⟩
  have ha : IsText .one ([0x41] : List UInt8) :=
    isText_encode (List.forall_mem_singleton.mpr (by decide : IsValidCodePoint 0x41))
  have hb : IsText .one ([0x42] : List UInt8) :=
    isText_encode (List.forall_mem_singleton.mpr (by decide : IsValidCodePoint 0x42))
  exact ⟨(skip_loses_only_error_iff ha isTruncated_euro hnil).mpr rfl,
    mt (skip_loses_only_error_iff ha isTruncated_euro hb).mp (List.cons_ne_nil _ _)⟩

end Utf

end SRCommon
