import SRCommon.Common.AnyMarshal
import SRCommon.Types.StreamRefinement

/-!
# Formats of saved values

The bytes that each `Save` function appends, and what the `Load` function of
the same type makes of them. The two sides differ in the length field of a
short string, an `int16_t` when it is written and a `uint16_t` when it is read.
-/

namespace SRCommon

/-!
## Writing on and reading on

A stream that is only written to holds what has been written, with the
position at the end. A stream that is only read has bytes ahead of the
position, and each read takes some of them.
-/

namespace Stream

variable {s : Stream} {done bytes rest : List UInt8}

def Holds (s : Stream) (bytes : List UInt8) : Prop := s.Shows (.full bytes)

def Ahead (s : Stream) (rest : List UInt8) : Prop :=
  ∃ f : ByteFile, s.Shows f ∧ f.contents.drop f.cursor = rest

theorem holds_empty : empty.Holds [] := shows_empty

theorem Holds.write (h : s.Holds done) (bytes : List UInt8) (count : UInt64)
    (hcount : count.toNat = bytes.length) (hroom : done.length + bytes.length < 2 ^ 63) :
    ∃ s', s.write (bytes.map some) count = some s' ∧ s'.Holds (done ++ bytes) := by
  let pSrc : Buffer := ⟨bytes, by omega⟩
  have hpSrc : pSrc.count = count := by
    rw [← UInt64.toNat_inj, hcount, Buffer.toNat_count]
  have hrange : s.HasRoom pSrc.bytes.length := by
    right
    rw [h.size_eq]
    exact hroom
  have hend : s.pos = s.size := by
    rw [← UInt64.toNat_inj, h.pos_eq, h.size_eq]
    rfl
  obtain ⟨s', f', out, hs', hf', hshows⟩ := h.answer (r := .write pSrc) trivial hrange (.inl hend)
  obtain ⟨t, ht, heq⟩ := Option.map_eq_some_iff.mp hs'
  cases heq
  cases hf'
  rw [ByteFile.write_full] at hshows
  rw [← hpSrc]
  exact ⟨s', ht, hshows⟩

/-- `SetPosition(0)`. -/
theorem Holds.rewind (h : s.Holds bytes) : (s.setPosition 0).Ahead bytes := by
  refine ⟨⟨bytes, 0, Nat.zero_le _⟩, ⟨?_, h.size_eq, rfl, h.contents_eq⟩, List.drop_zero⟩
  exact h.ordered.setPosition UInt64.zero_le

theorem Ahead.read (h : s.Ahead (bytes ++ rest)) (pDst : List Cell) (count : UInt64)
    (hcount : count.toNat = bytes.length) (hdst : pDst.length = bytes.length) :
    ∃ s', s.read pDst count = some (bytes.map some, s') ∧ s'.Ahead rest := by
  obtain ⟨f, hshows, hahead⟩ := h
  have hin : f.cursor + count.toNat ≤ f.contents.length := by
    have hlength := congrArg List.length hahead
    have hinside := f.inside
    rw [List.length_drop, List.length_append] at hlength
    omega
  obtain ⟨hread, hskip⟩ := hshows.tryRead_of_le (show count.toNat ≤ pDst.length by omega) hin
  refine ⟨s.skip count, ?_, _, hskip, ?_⟩
  · rw [hshows.ordered.read_eq_tryRead, hread, hahead, hcount, List.take_left, splice_zero]
    rw [hdst, List.length_map]
  · rw [← List.drop_drop, hahead, hcount, List.drop_left]

theorem Ahead.pos_eq_size (h : s.Ahead []) : s.pos = s.size := by
  obtain ⟨f, hshows, hahead⟩ := h
  have hinside := f.inside
  have hend := List.drop_eq_nil_iff.mp hahead
  rw [← UInt64.toNat_inj, hshows.pos_eq, hshows.size_eq]
  omega

end Stream

namespace Stream

theorem write_eq_none (s : Stream) {pSrc : List Cell} {count : UInt64}
    (h : pSrc.length < count.toNat) : s.write pSrc count = none := by
  rw [write, store, dif_neg]
  · rfl
  · rintro ⟨-, hsrc⟩
    omega

/-- `Write` sees no more of the source than it counts. -/
theorem write_take (s : Stream) {pSrc : List Cell} {count : UInt64}
    (h : count.toNat ≤ pSrc.length) :
    s.write (pSrc.take count.toNat) count = s.write pSrc count := by
  simp [write, store, List.take_take, h]

end Stream

namespace MarshalUtils

open LittleEndian

variable {m : DataModel} {s : Stream} {done rest : List UInt8}

/-! ## Variables -/

@[simp] theorem known_map_some (bytes : List UInt8) : known (bytes.map some) = some bytes := by
  rw [known]
  induction bytes with
  | nil => rfl
  | cons b bytes ih => simp [ih]

theorem decode_bytes {t : CppType} (x : t.Value m) :
    decode m t ((CppType.bytes x).map some) = some x := by
  have hvalue : ofBytes (CppType.bytes x) = x := ofBytes_toBytes (x.isLt.trans_le (t.range_le m))
  simp [decode, hvalue]

theorem decodeChar_charBytes (c : UInt32) : decodeChar ((charBytes c).map some) = some c := by
  have hvalue : ofBytes (charBytes c) = c.toNat := ofBytes_toBytes c.toNat_lt
  simp [decodeChar, hvalue]

@[simp] theorem length_bytes {t : CppType} (x : t.Value m) :
    (CppType.bytes x).length = t.sizeOf m := length_toBytes _ _

@[simp] theorem length_byteBytes (c : UInt8) : (byteBytes c).length = 1 := rfl

@[simp] theorem length_charBytes (c : UInt32) : (charBytes c).length = 4 := length_toBytes _ _

theorem length_flatMap_of_length {α : Type} {encode : α → List UInt8} {width : ℕ}
    (hlength : ∀ x, (encode x).length = width) (xs : List α) :
    (xs.flatMap encode).length = xs.length * width := by
  induction xs with
  | nil => simp
  | cons x xs ih =>
      rw [List.flatMap_cons, List.length_append, ih, hlength, List.length_cons, Nat.succ_mul,
        Nat.add_comm]

/-- Elements of one width are found again one after the other. -/
theorem elements_flatMap {α : Type} {encode : α → List UInt8} {decode : List Cell → Option α}
    {width : ℕ} (hlength : ∀ x, (encode x).length = width)
    (hdecode : ∀ x, decode ((encode x).map some) = some x) (xs : List α) :
    elements width decode xs.length ((xs.flatMap encode).map some) = some xs := by
  induction xs with
  | nil => rfl
  | cons x xs ih =>
      have hwidth : ((encode x).map some).length = width := by rw [List.length_map, hlength]
      rw [List.flatMap_cons, List.map_append, List.length_cons, elements,
        ← hwidth, List.take_left, List.drop_left, hdecode, hwidth, ih]
      rfl

theorem toNat_sizeOf (t : CppType) : (UInt64.ofNat (t.sizeOf m)).toNat = t.sizeOf m := by
  have hlt := t.sizeOf_lt m
  apply UInt64.toNat_ofNat_of_lt'
  exact hlt.trans (by decide)

/-! ## Fundamental types -/

def valueBytes {t : CppType} (x : t.Value m) : List UInt8 :=
  if t.isNumber then CppType.bytes x else []

theorem saveValue_eq (h : s.Holds done) {t : CppType} (x : t.Value m)
    (hroom : (done ++ valueBytes x).length < 2 ^ 63) :
    ∃ s', saveValue s x = some s' ∧ s'.Holds (done ++ valueBytes x) := by
  rw [saveValue]
  rw [valueBytes] at hroom ⊢
  split
  · rename_i hnumber
    rw [if_pos hnumber, List.length_append] at hroom
    exact h.write _ _ (by rw [toNat_sizeOf, length_bytes]) hroom
  · exact ⟨s, rfl, by simpa using h⟩

theorem loadValue_eq {t : CppType} (ht : t.isNumber) (x : t.Value m)
    (h : s.Ahead (CppType.bytes x ++ rest)) :
    ∃ s', loadValue m t s = some (x, s') ∧ s'.Ahead rest := by
  obtain ⟨s', hs', hahead⟩ := h.read (zeros (t.sizeOf m))
    (UInt64.ofNat (t.sizeOf m)) (by rw [toNat_sizeOf, length_bytes]) (by simp [zeros])
  exact ⟨s', by simp [loadValue, ht, hs', decode_bytes], hahead⟩

theorem loadSize_eq {width n : ℕ} (hwidth : width < 2 ^ 64) (hn : n < 256 ^ width)
    (h : s.Ahead (toBytes width n ++ rest)) :
    ∃ s', loadSize width s = some (n, s') ∧ s'.Ahead rest := by
  obtain ⟨s', hs', hahead⟩ := h.read (indeterminate width) (UInt64.ofNat width)
    (by rw [UInt64.toNat_ofNat_of_lt' hwidth, length_toBytes]) (by simp [indeterminate])
  exact ⟨s', by simp [loadSize, hs', ofBytes_toBytes hn], hahead⟩

/-! ## Strings -/

theorem toNat_toSize {n : ℕ} (h : n % 65536 < 32768) :
    (toSize (BitVec.ofNat 16 n)).toNat = n % 65536 := by
  have hmsb : (BitVec.ofNat 16 n).msb = false := by
    rw [BitVec.msb_eq_false_iff_two_mul_lt, BitVec.toNat_ofNat]
    omega
  rw [toSize, UInt64.toNat_ofBitVec, BitVec.toNat_signExtend, hmsb, BitVec.toNat_setWidth,
    BitVec.toNat_ofNat]
  simp only [Bool.false_eq_true, if_false]
  omega

/-- A negative length is extended with ones. -/
theorem toNat_toSize_of_ge {n : ℕ} (h : 32768 ≤ n % 65536) :
    (toSize (BitVec.ofNat 16 n)).toNat = n % 65536 + (2 ^ 64 - 2 ^ 16) := by
  have hmsb : (BitVec.ofNat 16 n).msb = true := by
    rw [BitVec.msb_eq_true_iff_two_mul_ge, BitVec.toNat_ofNat]
    omega
  rw [toSize, UInt64.toNat_ofBitVec, BitVec.toNat_signExtend, hmsb, BitVec.toNat_setWidth,
    BitVec.toNat_ofNat, if_pos rfl]
  omega

section

variable {α : Type} {encode : α → List UInt8} {width : ℕ}

/-- The part of a string that the length field counts. -/
def counted (str : List α) : List α := str.take (str.length % 65536)

theorem length_counted (str : List α) : (counted str).length = str.length % 65536 := by
  rw [counted, List.length_take]
  exact min_eq_left (Nat.mod_le _ _)

theorem counted_of_lt {str : List α} (h : str.length < 65536) : counted str = str := by
  rw [counted, Nat.mod_eq_of_lt h, List.take_length]

def countedBytes (encode : α → List UInt8) (str : List α) : List UInt8 :=
  toBytes 2 (str.length % 65536) ++ (counted str).flatMap encode

theorem length_countedBytes_le (hlength : ∀ x, (encode x).length = width) (str : List α) :
    (countedBytes encode str).length ≤ 2 + str.length * width := by
  rw [countedBytes, List.length_append, length_toBytes, length_flatMap_of_length hlength,
    length_counted]
  exact Nat.add_le_add_left (Nat.mul_le_mul_right width (Nat.mod_le _ _)) 2

theorem toNat_width (hwidth : width < 256) : (UInt64.ofNat width).toNat = width :=
  UInt64.toNat_ofNat_of_lt' (hwidth.trans (by decide))

theorem take_flatMap (hlength : ∀ x, (encode x).length = width) (xs : List α) (k : ℕ) :
    (xs.flatMap encode).take (k * width) = (xs.take k).flatMap encode := by
  induction xs generalizing k with
  | nil => simp
  | cons x xs ih =>
      cases k with
      | zero => simp
      | succ k =>
          rw [List.flatMap_cons, List.take_succ_cons, List.flatMap_cons, List.take_append, hlength,
            Nat.succ_mul, Nat.add_sub_cancel, ih, List.take_of_length_le]
          rw [hlength]
          omega

theorem saveCounted_eq (h : s.Holds done) (hlength : ∀ x, (encode x).length = width)
    (hwidth : width < 256) {str : List α} (hfits : str.length % 65536 < 32768)
    (hroom : (done ++ countedBytes encode str).length < 2 ^ 63) :
    ∃ s', saveCounted encode (UInt64.ofNat width) s str = some s' ∧
      s'.Holds (done ++ countedBytes encode str) := by
  have hsize := toNat_toSize hfits
  have hdata := length_flatMap_of_length hlength (counted str)
  rw [length_counted] at hdata
  have hcount : (toSize (BitVec.ofNat 16 str.length) * UInt64.ofNat width).toNat =
      ((counted str).flatMap encode).length := by
    rw [UInt64.toNat_mul, hsize, toNat_width hwidth, hdata]
    apply Nat.mod_eq_of_lt
    exact (Nat.mul_le_mul (Nat.mod_lt _ (by decide)).le hwidth.le).trans_lt (by decide)
  have hle : (toSize (BitVec.ofNat 16 str.length) * UInt64.ofNat width).toNat ≤
      ((str.flatMap encode).map some).length := by
    rw [hcount, hdata, List.length_map, length_flatMap_of_length hlength]
    exact Nat.mul_le_mul_right width (Nat.mod_le _ _)
  rw [countedBytes, ← List.append_assoc] at hroom ⊢
  rw [List.length_append] at hroom
  have hheader : (done ++ toBytes 2 (str.length % 65536)).length < 2 ^ 63 := by omega
  rw [List.length_append] at hheader
  obtain ⟨s₁, hs₁, hholds⟩ :=
    h.write (toBytes 2 (str.length % 65536)) 2 (length_toBytes 2 _).symm hheader
  obtain ⟨s₂, hs₂, hholds₂⟩ := hholds.write _ _ hcount hroom
  have htake : ((str.flatMap encode).map some).take
      (toSize (BitVec.ofNat 16 str.length) * UInt64.ofNat width).toNat =
      ((counted str).flatMap encode).map some := by
    rw [hcount, hdata, ← List.map_take, take_flatMap hlength, counted]
  rw [← htake, Stream.write_take _ hle] at hs₂
  refine ⟨s₂, ?_, hholds₂⟩
  simp [saveCounted, writeBytes, hs₁, hs₂]

/-- The count of a string with a negative length leaves every string. -/
theorem saveCounted_eq_none (width : ℕ) (hpos : 0 < width) (hwidth : width < 256)
    {str : List α} (hlong : 32768 ≤ str.length % 65536)
    (hbytes : (str.flatMap encode).length < 2 ^ 63) :
    saveCounted encode (UInt64.ofNat width) s str = none := by
  have hmod := Nat.mod_lt str.length (by decide : 65536 > 0)
  have hsize : (toSize (BitVec.ofNat 16 str.length)).toNat =
      2 ^ 64 - (65536 - str.length % 65536) := by
    rw [toNat_toSize_of_ge hlong]
    omega
  generalize hmissing : 65536 - str.length % 65536 = missing at hsize
  have hprodPos : 0 < missing * width := Nat.mul_pos (by omega) hpos
  have hprodLe : missing * width ≤ 32768 * 256 := Nat.mul_le_mul (by omega) hwidth.le
  have hcount : ((str.flatMap encode).map some).length <
      (toSize (BitVec.ofNat 16 str.length) * UInt64.ofNat width).toNat := by
    rw [UInt64.toNat_mul, hsize, toNat_width hwidth, Nat.sub_mul, List.length_map]
    omega
  simp [saveCounted, writeBytes, Stream.write_eq_none _ hcount]

/-- Reading the field unsigned gives the length back below its maximum. -/
theorem loadCounted_eq {field : ℕ} {decode : List Cell → Option α}
    (hlength : ∀ x, (encode x).length = width)
    (hdecode : ∀ x, decode ((encode x).map some) = some x) (hwidth : width < 256)
    (hfield : field < 2 ^ 64) {str : List α} (hstr : str.length < uint16Max)
    (hfits : str.length < 256 ^ field)
    (h : s.Ahead (toBytes field str.length ++ str.flatMap encode ++ rest)) :
    ∃ s', loadCounted field width decode s = some (str, s') ∧ s'.Ahead rest := by
  have hdata := length_flatMap_of_length hlength str
  have hbound : str.length < 65535 := hstr
  rw [List.append_assoc] at h
  obtain ⟨s₁, hs₁, hahead⟩ := loadSize_eq hfield hfits h
  have hcount : (UInt64.ofNat (str.length * width)).toNat = (str.flatMap encode).length := by
    rw [hdata]
    apply UInt64.toNat_ofNat_of_lt'
    exact (Nat.mul_le_mul hbound.le hwidth.le).trans_lt (by decide)
  obtain ⟨s₂, hs₂, hahead₂⟩ := hahead.read (zeros (str.length * width)) _ hcount
    (by rw [hdata, zeros, List.length_replicate])
  refine ⟨s₂, ?_, hahead₂⟩
  rw [loadCounted, hs₁]
  simp only [Option.bind_eq_bind, Option.bind_some]
  rw [if_neg (Nat.not_le.mpr hstr), hs₂]
  simp only [Option.bind_some, elements_flatMap hlength hdecode]

/-- The counted part comes back, all of it where the field counts all of it. -/
theorem loadCounted_countedBytes {decode : List Cell → Option α}
    (hlength : ∀ x, (encode x).length = width)
    (hdecode : ∀ x, decode ((encode x).map some) = some x) (hwidth : width < 256) {str : List α}
    (hfits : str.length % 65536 < 32768) (h : s.Ahead (countedBytes encode str ++ rest)) :
    ∃ s', loadCounted 2 width decode s = some (counted str, s') ∧ s'.Ahead rest := by
  have hcounted := length_counted str
  rw [countedBytes, ← hcounted] at h
  have hmax : (counted str).length < uint16Max := by
    rw [hcounted]
    exact hfits.trans (by decide)
  exact loadCounted_eq hlength hdecode hwidth (by decide) hmax (hmax.trans (by decide)) h

theorem lt_of_counted_eq {str : List α} (hfits : str.length % 65536 < 32768)
    (h : counted str = str) : str.length < 32768 := by
  rw [← h, length_counted]
  exact hfits

end

theorem decodeByte_byteBytes (c : UInt8) : decodeByte ((byteBytes c).map some) = some c := rfl

theorem loadShortStr_eq {str : List UInt8} (hfits : str.length % 65536 < 32768)
    (h : s.Ahead (countedBytes byteBytes str ++ rest)) :
    ∃ s', loadShortStr s = some (counted str, s') ∧ s'.Ahead rest :=
  loadCounted_countedBytes length_byteBytes decodeByte_byteBytes (by decide) hfits h

theorem loadUnicodeString_eq {str : List UInt32} (hfits : str.length % 65536 < 32768)
    (h : s.Ahead (countedBytes charBytes str ++ rest)) :
    ∃ s', loadUnicodeString s = some (counted str, s') ∧ s'.Ahead rest :=
  loadCounted_countedBytes length_charBytes decodeChar_charBytes (by decide) hfits h

/-! ## Vectors -/

def vectorBytes {t : CppType} (vector : List (t.Value m)) : List UInt8 :=
  toBytes 8 vector.length ++ vector.flatMap CppType.bytes

theorem length_vectorBytes {t : CppType} (vector : List (t.Value m)) :
    (vectorBytes vector).length = 8 + vector.length * t.sizeOf m := by
  rw [vectorBytes, List.length_append, length_toBytes, length_flatMap_of_length length_bytes]

theorem length_le_length_mul {t : CppType} (n : ℕ) : n ≤ n * t.sizeOf m :=
  Nat.le_mul_of_pos_right n (t.sizeOf_pos m)

theorem saveVector_eq (h : s.Holds done) {t : CppType} (vector : List (t.Value m))
    (hroom : (done ++ vectorBytes vector).length < 2 ^ 63) :
    ∃ s', saveVector s vector = some s' ∧ s'.Holds (done ++ vectorBytes vector) := by
  rw [List.length_append, length_vectorBytes] at hroom
  have hle := length_le_length_mul (m := m) (t := t) vector.length
  have hsize : (UInt64.ofNat vector.length).toNat = vector.length := by
    apply UInt64.toNat_ofNat_of_lt'
    change vector.length < 2 ^ 64
    omega
  have hheader : done.length + (toBytes 8 vector.length).length < 2 ^ 63 := by
    rw [length_toBytes]
    omega
  obtain ⟨s₁, hs₁, hholds⟩ := h.write (toBytes 8 vector.length) 8
    (length_toBytes 8 _).symm hheader
  rw [vectorBytes, ← List.append_assoc]
  cases vector with
  | nil => exact ⟨s₁, by simpa [saveVector, writeBytes] using hs₁, by simpa using hholds⟩
  | cons x xs =>
      have hdata := length_flatMap_of_length (length_bytes (m := m) (t := t)) (x :: xs)
      have hcount : (UInt64.ofNat (x :: xs).length * UInt64.ofNat (t.sizeOf m)).toNat =
          ((x :: xs).flatMap CppType.bytes).length := by
        rw [UInt64.toNat_mul, hsize, toNat_sizeOf, hdata, Nat.mod_eq_of_lt (by omega)]
      obtain ⟨s₂, hs₂, hholds₂⟩ := hholds.write _ _ hcount (by
        rw [hdata, List.length_append, length_toBytes]
        omega)
      have hpos : UInt64.ofNat (x :: xs).length > 0 := by
        rw [gt_iff_lt, UInt64.lt_iff_toNat_lt, hsize]
        exact Nat.succ_pos _
      refine ⟨s₂, ?_, hholds₂⟩
      rw [saveVector]
      simp only [Option.bind_eq_bind, writeBytes, hsize, hs₁, Option.bind_some]
      rw [if_pos hpos, hs₂]

theorem loadVector_eq {t : CppType} (vector : List (t.Value m))
    (hbytes : vector.length * t.sizeOf m < 2 ^ 63) (h : s.Ahead (vectorBytes vector ++ rest)) :
    ∃ s', loadVector m t s = some (vector, s') ∧ s'.Ahead rest := by
  have hle := length_le_length_mul (m := m) (t := t) vector.length
  rw [vectorBytes, List.append_assoc] at h
  obtain ⟨s₁, hs₁, hahead⟩ := loadSize_eq (by decide) (by omega) h
  cases vector with
  | nil => exact ⟨s₁, by simp [loadVector, hs₁], by simpa using hahead⟩
  | cons x xs =>
      have hdata := length_flatMap_of_length (length_bytes (m := m) (t := t)) (x :: xs)
      have hcount : (UInt64.ofNat ((x :: xs).length * t.sizeOf m)).toNat =
          (x :: xs).length * t.sizeOf m :=
        UInt64.toNat_ofNat_of_lt' (hbytes.trans (by decide))
      obtain ⟨s₂, hs₂, hahead₂⟩ := hahead.read (zeros ((x :: xs).length * t.sizeOf m))
        (UInt64.ofNat ((x :: xs).length * t.sizeOf m)) (hcount.trans hdata.symm)
        (by rw [hdata, zeros, List.length_replicate])
      refine ⟨s₂, ?_, hahead₂⟩
      rw [loadVector, hs₁]
      simp only [Option.bind_eq_bind, Option.bind_some]
      rw [if_pos (show (x :: xs).length > 0 from Nat.succ_pos _), hs₂]
      simp only [guard, hbytes, if_true, Option.pure_def, Option.bind_some,
        elements_flatMap length_bytes decode_bytes]

/-! ## Any values -/

/-- The types whose `typeid` the visitor and the `any_cast` both name. -/
def storedTypes : DataModel → List CppType
  | .lp64 => [.bool, .unsignedChar, .short, .unsignedShort, .int, .unsignedInt, .float, .double]
  | .llp64 =>
      [.bool, .unsignedChar, .short, .unsignedShort, .int, .unsignedInt, .longLong,
        .unsignedLongLong, .float, .double]

theorem mem_storedTypes_iff (t : CppType) :
    t ∈ storedTypes m ↔ (visit t).cppType m = some t := by
  cases m <;> cases t <;> decide

/-- What is written behind the type. -/
def payload (any : AnyValue m) : List UInt8 :=
  match (getStandardType any).cppType m with
  | some t =>
      match anyCast t any with
      | some x => valueBytes x
      | none => []
  | none => []

def anyBytes (any : AnyValue m) : List UInt8 :=
  valueBytes (typeCode (m := m) (getStandardType any)) ++ payload any

theorem getStandardType_ne_string (any : AnyValue m) : getStandardType any ≠ .string := by
  cases any with
  | empty | string => simp [getStandardType]
  | scalar t x => cases t <;> simp [getStandardType, visit]

theorem saveAnyAs_eq (h : s.Holds done) (any : AnyValue m)
    (hroom : (done ++ payload any).length < 2 ^ 63) :
    ∃ s', saveAnyAs (getStandardType any) s any = some s' ∧ s'.Holds (done ++ payload any) := by
  cases hcpp : (getStandardType any).cppType m with
  | some t =>
      cases hcast : anyCast t any with
      | some x =>
          have hpayload : payload any = valueBytes x := by simp [payload, hcpp, hcast]
          rw [hpayload] at hroom ⊢
          obtain ⟨s', hs', hholds⟩ := saveValue_eq h x hroom
          exact ⟨s', by simp only [saveAnyAs, hcpp, hcast, hs'], hholds⟩
      | none =>
          have hpayload : payload any = [] := by simp [payload, hcpp, hcast]
          exact ⟨s, by simp only [saveAnyAs, hcpp, hcast], by simpa [hpayload] using h⟩
  | none =>
      have hpayload : payload any = [] := by simp [payload, hcpp]
      refine ⟨s, ?_, by simpa [hpayload] using h⟩
      simp only [saveAnyAs, hcpp]
      split
      · rename_i hstring
        exact absurd hstring (getStandardType_ne_string _)
      · rfl

theorem saveAny_eq (h : s.Holds done) (any : AnyValue m)
    (hroom : (done ++ anyBytes any).length < 2 ^ 63) :
    ∃ s', saveAny s any = some s' ∧ s'.Holds (done ++ anyBytes any) := by
  rw [anyBytes, ← List.append_assoc] at hroom ⊢
  obtain ⟨s₁, hs₁, hholds⟩ := saveValue_eq h (typeCode (m := m) (getStandardType any)) (by
    rw [List.length_append] at hroom
    omega)
  obtain ⟨s₂, hs₂, hholds₂⟩ := saveAnyAs_eq hholds any hroom
  exact ⟨s₂, by simp [saveAny, hs₁, hs₂], hholds₂⟩

theorem loadAny_eq_loadAnyAs (type : StandardType)
    (h : s.Ahead (valueBytes (typeCode (m := m) type) ++ rest)) :
    ∃ s', loadAny m s = loadAnyAs m type s' ∧ s'.Ahead rest := by
  obtain ⟨s', hs', hahead⟩ := loadValue_eq rfl (typeCode (m := m) type) h
  refine ⟨s', ?_, hahead⟩
  rw [loadAny, hs']
  simp [typeCode]

/-- An empty `std::any` or one of a stored type. -/
def Stored : AnyValue m → Prop
  | .empty => True
  | .scalar t _ => t ∈ storedTypes m
  | .string _ => False

theorem isNumber_of_mem_storedTypes {t : CppType} (h : t ∈ storedTypes m) : t.isNumber := by
  revert h
  cases m <;> cases t <;> decide

theorem anyCast_scalar {t : CppType} (x : t.Value m) : anyCast t (.scalar t x) = some x :=
  dif_pos rfl

theorem loadAny_eq {any : AnyValue m} (hstored : Stored any) (h : s.Ahead (anyBytes any ++ rest)) :
    ∃ s', loadAny m s = some (any, s') ∧ s'.Ahead rest := by
  rw [anyBytes, List.append_assoc] at h
  obtain ⟨s₁, hs₁, hahead⟩ := loadAny_eq_loadAnyAs _ h
  rw [hs₁]
  cases any with
  | empty => exact ⟨s₁, rfl, hahead⟩
  | string str => exact absurd hstored id
  | scalar t x =>
      have hcpp := (mem_storedTypes_iff t).mp hstored
      have hnumber := isNumber_of_mem_storedTypes hstored
      have hpayload : payload (.scalar t x) = CppType.bytes x := by
        simp [payload, getStandardType, hcpp, anyCast_scalar, valueBytes, hnumber]
      rw [hpayload] at hahead
      obtain ⟨s₂, hs₂, hahead₂⟩ := loadValue_eq hnumber x hahead
      exact ⟨s₂, by simp [loadAnyAs, getStandardType, hcpp, hs₂], hahead₂⟩

/-- Any other value comes back empty or with another type. -/
theorem stored_of_loadAny {any : AnyValue m} (h : s.Ahead (anyBytes any ++ rest)) {s' : Stream}
    (hload : loadAny m s = some (any, s')) : Stored any := by
  rw [anyBytes, List.append_assoc] at h
  obtain ⟨s₁, hs₁, hahead⟩ := loadAny_eq_loadAnyAs _ h
  rw [hs₁] at hload
  cases any with
  | empty => trivial
  | string str => simp [loadAnyAs, getStandardType, StandardType.cppType] at hload
  | scalar t x =>
      refine (mem_storedTypes_iff t).mpr ?_
      cases hcpp : (visit t).cppType m with
      | some u =>
          simp only [getStandardType, loadAnyAs, hcpp] at hload
          obtain ⟨r, hr, heq⟩ := Option.map_eq_some_iff.mp hload
          injection heq with hvalue
          injection hvalue with htype
          rw [htype]
      | none =>
          simp only [getStandardType, loadAnyAs, hcpp] at hload
          split at hload
          · obtain ⟨r, hr, heq⟩ := Option.map_eq_some_iff.mp hload
            cases heq
          · cases hload

end MarshalUtils

end SRCommon
