import SRCommon.Types.MarshalBlocks

/-!
# Reads of numbers at a position

A read of a number takes its bytes, and gives zero where there are not enough
of them.
-/

namespace SRCommon

open LittleEndian MarshalUtils

/-- `Read` of an unsigned number. The widths that are used are the same on all platforms. -/
def Marshal.readNumber (s : Marshal) (t : CppType) : Option (ℕ × Marshal) :=
  (loadValue .lp64 t s).map fun r => (r.1.val, r.2)

/-- The types whose values are all the bytes there can be. -/
def CppType.Unsigned (t : CppType) : Prop := t.isNumber = true ∧ t ≠ .bool

instance (t : CppType) : Decidable t.Unsigned := inferInstanceAs (Decidable (_ ∧ _))

theorem CppType.Unsigned.range_eq {t : CppType} (h : t.Unsigned) (m : DataModel) :
    t.range m = 256 ^ t.sizeOf m := by
  cases t with
  | bool => exact absurd rfl h.2
  | _ => rfl

/-- The number that is read from so many bytes, and how many bytes that takes. -/
def numberAhead (n : ℕ) (ahead : List UInt8) : ℕ × ℕ :=
  if n ≤ ahead.length then (ofBytes (ahead.take n), n) else (0, 0)

theorem numberAhead_le (n : ℕ) (ahead : List UInt8) : (numberAhead n ahead).2 ≤ ahead.length := by
  rw [numberAhead]
  split
  · assumption
  · exact Nat.zero_le _

theorem numberAhead_append {n : ℕ} {bytes : List UInt8} (h : bytes.length = n)
    (rest : List UInt8) : numberAhead n (bytes ++ rest) = (ofBytes bytes, n) := by
  subst h
  rw [numberAhead, if_pos (by simp), List.take_left]

theorem ofBytes_lt (bytes : List UInt8) : ofBytes bytes < 256 ^ bytes.length := by
  have hdigits : ∀ x ∈ bytes.map UInt8.toNat, x < 256 := fun x hx => by
    obtain ⟨b, -, rfl⟩ := List.mem_map.mp hx
    exact b.toNat_lt
  have hlt := Nat.ofDigits_lt_base_pow_length (b := 256) (by decide) hdigits
  rwa [List.length_map] at hlt

theorem ofBytes_replicate_zero (n : ℕ) : ofBytes (List.replicate n 0) = 0 := by
  induction n with
  | zero => rfl
  | succ n ih => rw [List.replicate_succ, ofBytes_cons, ih, UInt8.toNat_zero, Nat.mul_zero]

namespace MarshalUtils

theorem decode_map_some {t : CppType} (ht : t.Unsigned) {m : DataModel} {bytes : List UInt8}
    (hlength : bytes.length = t.sizeOf m) :
    (decode m t (bytes.map some)).map Fin.val = some (ofBytes bytes) := by
  have hlt := ofBytes_lt bytes
  rw [hlength, ← ht.range_eq m] at hlt
  rw [decode, known_map_some, Option.bind_some, dif_pos hlt]
  rfl

theorem zeros_eq (n : ℕ) : zeros n = (List.replicate n 0).map some := by
  rw [zeros, List.map_replicate]

end MarshalUtils

namespace Stream

variable {s : Stream} {contents : List UInt8} {p q : ℕ}

/-- `SetPosition`. -/
def seek (s : Stream) (p : ℕ) : Stream := s.setPosition (UInt64.ofNat p)

@[simp] theorem seek_seek : (s.seek p).seek q = s.seek q := rfl

theorem Carries.length_lt (h : s.Carries contents) : contents.length < 2 ^ 64 :=
  h.toNat_size ▸ s.size.toNat_lt

theorem Carries.toNat_pos_seek (h : s.Carries contents) (hp : p ≤ contents.length) :
    (s.seek p).pos.toNat = p :=
  UInt64.toNat_ofNat_of_lt' (hp.trans_lt h.length_lt)

theorem Carries.shows_seek (h : s.Carries contents) (hp : p ≤ contents.length) :
    (s.seek p).Shows ⟨contents, p, hp⟩ := by
  have hpos := h.toNat_pos_seek hp
  have hsize := h.toNat_size
  have hcontents := h.contents_eq
  obtain ⟨f, hshows, rfl⟩ := h
  refine ⟨hshows.ordered.setPosition ?_, hsize, hpos, hcontents⟩
  rw [UInt64.le_iff_toNat_le]
  change (s.seek p).pos.toNat ≤ _
  rw [hpos, hsize]
  exact hp

theorem Carries.skip_seek (h : s.Carries contents) {count : UInt64}
    (hp : p + count.toNat ≤ contents.length) :
    (s.seek p).skip count = s.seek (p + count.toNat) := by
  have hpos := h.toNat_pos_seek (show p ≤ contents.length by omega)
  have heq : (s.seek p).pos + count = UInt64.ofNat (p + count.toNat) := by
    have hlt := hp.trans_lt h.length_lt
    rw [← UInt64.toNat_inj, UInt64.toNat_add, hpos, UInt64.toNat_ofNat_of_lt' hlt,
      Nat.mod_eq_of_lt hlt]
  rw [skip, heq]
  rfl

theorem Carries.readNumber (h : s.Carries contents) (hroom : contents.length < 2 ^ 63)
    (hp : p ≤ contents.length) {t : CppType} (ht : t.Unsigned) {n : ℕ} (hn : t.sizeOf .lp64 = n) :
    Marshal.readNumber (s.seek p) t =
      some ((numberAhead n (contents.drop p)).1,
        s.seek (p + (numberAhead n (contents.drop p)).2)) := by
  subst hn
  have hshows := h.shows_seek hp
  have hcount : (UInt64.ofNat (t.sizeOf .lp64)).toNat = t.sizeOf .lp64 := toNat_sizeOf t
  have hsmall := t.sizeOf_lt .lp64
  rw [Marshal.readNumber, loadValue, if_pos ht.1, hshows.ordered.read_eq_tryRead, numberAhead,
    List.length_drop]
  split
  · rename_i hin
    have hin' : p + (UInt64.ofNat (t.sizeOf .lp64)).toNat ≤ contents.length := by omega
    have hzeros : (UInt64.ofNat (t.sizeOf .lp64)).toNat ≤ (zeros (t.sizeOf .lp64)).length := by
      simp [hcount, zeros]
    have hbytes : ((contents.drop p).take (t.sizeOf .lp64)).length = t.sizeOf .lp64 := by
      rw [List.length_take, List.length_drop]
      omega
    rw [(hshows.tryRead_of_le hzeros hin').1,
      splice_zero (by simp [zeros, hcount, hin]), h.skip_seek hin', hcount]
    obtain ⟨x, hx, hvalue⟩ := Option.map_eq_some_iff.mp (decode_map_some (m := .lp64) ht hbytes)
    change Option.map _ ((decode .lp64 t _).bind _) = _
    rw [hx, ← hvalue]
    rfl
  · rename_i hout
    have hpos := h.toNat_pos_seek hp
    rw [hshows.ordered.tryRead_eq_some (by simp [hcount, zeros]) (by rw [hpos, hcount]; omega),
      if_neg (by rw [hpos, hcount, hshows.size_eq]; dsimp only; omega), zeros_eq]
    have hbytes : (List.replicate (t.sizeOf .lp64) (0 : UInt8)).length = t.sizeOf .lp64 :=
      List.length_replicate
    obtain ⟨x, hx, hvalue⟩ := Option.map_eq_some_iff.mp (decode_map_some (m := .lp64) ht hbytes)
    rw [ofBytes_replicate_zero] at hvalue
    change Option.map _ ((decode .lp64 t _).bind _) = _
    rw [hx, Nat.add_zero, ← hvalue]
    rfl

end Stream

end SRCommon
