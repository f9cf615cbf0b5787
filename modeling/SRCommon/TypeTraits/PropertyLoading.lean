import SRCommon.TypeTraits.PropertyBlocks

/-!
# Loading properties

What is loaded from the bytes of a property. The block of an external property
is not found behind the external block.
-/

namespace SRCommon

open LittleEndian MarshalUtils

namespace Marshal

variable {s : Marshal} {bytes rest : List UInt8}

theorem readNumber_ofBytes (t : CppType) (ht : t.Unsigned) (hwidth : t.sizeOf .lp64 = bytes.length)
    (h : Stream.Ahead s (bytes ++ rest)) :
    ∃ s', s.readNumber t = some (ofBytes bytes, s') ∧ Stream.Ahead s' rest := by
  rw [← toBytes_ofBytes bytes] at h
  refine readNumber_eq t bytes.length (ofBytes bytes) h ht.1 hwidth ?_
  rw [ht.range_eq, hwidth]
  exact ofBytes_lt bytes

theorem toBytes_four (n : ℕ) : toBytes 4 n = toBytes 2 n ++ toBytes 2 (n / 65536) :=
  toBytes_add 2 2 n

/-- A number of two bytes is the lower half of one of four. -/
theorem readNumber_low (t : CppType) (n : ℕ) (h : Stream.Ahead s (toBytes 4 n ++ rest))
    (ht : t.isNumber = true) (hwidth : t.sizeOf .lp64 = 2) (hrange : t.range .lp64 = 65536) :
    ∃ s', s.readNumber t = some (n % 65536, s') := by
  have hlow : toBytes 2 n = toBytes 2 (n % 65536) := (toBytes_mod 2 n).symm
  rw [toBytes_four, hlow, List.append_assoc] at h
  obtain ⟨s', hs', -⟩ := readNumber_eq t 2 (n % 65536) h ht hwidth (by
    rw [hrange]
    exact Nat.mod_lt _ (by decide))
  exact ⟨s', hs'⟩

/-- A length that is the greatest one gives no string. -/
theorem readString_max {n : ℕ} (hmax : uint16Max ≤ n) (hn : n < 65536)
    (h : Stream.Ahead s (toBytes 2 n ++ rest)) :
    ∃ s', s.readString = some ([], s') ∧ Stream.Ahead s' rest := by
  obtain ⟨s', hs', hahead⟩ := loadSize_eq (by decide) hn h
  refine ⟨s', ?_, hahead⟩
  rw [readString, loadShortStr, loadCounted, hs']
  exact if_pos hmax

/-! ## Reads leave the size -/

theorem size_of_read {s' : Marshal} {pDst buffer : List Cell} {count : UInt64}
    (h : Stream.read s pDst count = some (buffer, s')) : s'.size = s.size := by
  rw [Stream.read] at h
  split at h
  · cases h
    rfl
  split at h
  · cases h
    rfl
  rw [Stream.fetch] at h
  split at h
  · cases h
    rfl
  · cases h

theorem size_of_readNumber {s' : Marshal} {t : CppType} {n : ℕ} (ht : t.isNumber = true)
    (h : s.readNumber t = some (n, s')) : s'.size = s.size := by
  obtain ⟨r, hr, heq⟩ := Option.map_eq_some_iff.mp h
  rw [loadValue, if_pos ht] at hr
  obtain ⟨⟨buffer, s₁⟩, hs₁, hr⟩ := Option.bind_eq_some_iff.mp hr
  obtain ⟨value, -, hr⟩ := Option.bind_eq_some_iff.mp hr
  cases hr
  cases heq
  exact size_of_read hs₁

theorem size_of_readString {s' : Marshal} {str : Text} (h : s.readString = some (str, s')) :
    s'.size = s.size := by
  obtain ⟨⟨size, s₁⟩, hs₁, h⟩ := Option.bind_eq_some_iff.mp h
  obtain ⟨⟨buffer, s₂⟩, hs₂, hsize⟩ := Option.bind_eq_some_iff.mp hs₁
  obtain ⟨bytes, -, hsize⟩ := Option.bind_eq_some_iff.mp hsize
  cases hsize
  have hfirst := size_of_read hs₂
  dsimp only at h
  split at h
  · cases h
    exact hfirst
  · obtain ⟨⟨buffer', s₃⟩, hs₃, h⟩ := Option.bind_eq_some_iff.mp h
    obtain ⟨text, -, h⟩ := Option.bind_eq_some_iff.mp h
    cases h
    exact (size_of_read hs₃).trans hfirst

/-- Where no bytes are, a read changes nothing. -/
theorem read_nil (h : Stream.Shows s (.ofBytes [])) {pDst : List Cell} {count : UInt64}
    (hpos : 0 < count.toNat) (hdst : count.toNat ≤ pDst.length) :
    Stream.read s pDst count = some (pDst, s) := by
  have hcount := count.toNat_lt
  have hs : s.pos.toNat = 0 := h.pos_eq
  have hsize : s.size.toNat = 0 := h.size_eq
  rw [h.ordered.read_eq_tryRead, h.ordered.tryRead_eq_some hdst (by omega), if_neg (by omega)]

end Marshal

/-- The sign goes to the upper half. -/
theorem toInt16_low (x : Int16) :
    (UInt16.ofNat (x.toInt32.toUInt32.toNat % 65536)).toInt16 = x := by
  have hlow : (x.toBitVec.signExtend 32).setWidth 16 = x.toBitVec := by
    apply BitVec.eq_of_getLsbD_eq
    intro i hi
    rw [BitVec.getLsbD_setWidth, BitVec.getLsbD_signExtend]
    simp [hi, show i < 32 by omega]
  rw [← Int16.toBitVec_inj]
  change BitVec.ofNat 16 ((x.toBitVec.signExtend 32).toNat % 2 ^ 16) = x.toBitVec
  rw [← BitVec.toNat_setWidth, hlow, BitVec.ofNat_toNat, BitVec.setWidth_eq]

namespace StandardValue

theorem read_eq {value w : StandardValue} {bytes : List UInt8} {pBlock : Marshal}
    (hvalue : value.bytes = some bytes) (hshort : value.Short) (htype : value.type = w.type)
    (h : Stream.Ahead pBlock bytes) : w.read pBlock = some value := by
  rw [← List.append_nil bytes] at h
  cases value with
  | int8 | uint8 | int64 | uint64 => cases hvalue
  | bool value =>
      cases hvalue
      cases w <;> cases htype
      obtain ⟨s', hs', -⟩ := Marshal.readNumber_eq .bool 1 _ h rfl rfl (by cases value <;> decide)
      rw [read, hs', Option.map_some]
      cases value <;> rfl
  | int16 value =>
      cases hvalue
      cases w <;> cases htype
      obtain ⟨s', hs'⟩ := Marshal.readNumber_low .short _ h rfl rfl rfl
      rw [read, hs', Option.map_some, toInt16_low]
  | uint16 value =>
      cases hvalue
      cases w <;> cases htype
      obtain ⟨s', hs'⟩ := Marshal.readNumber_low .unsignedShort _ h rfl rfl rfl
      rw [read, hs', Option.map_some, Nat.mod_eq_of_lt value.toNat_lt, UInt16.ofNat_toNat]
  | int32 value =>
      cases hvalue
      cases w <;> cases htype
      obtain ⟨s', hs', -⟩ := Marshal.readNumber_eq .int 4 _ h rfl rfl value.toUInt32.toNat_lt
      rw [read, hs', Option.map_some, UInt32.ofNat_toNat]
      rfl
  | uint32 value =>
      cases hvalue
      cases w <;> cases htype
      obtain ⟨s', hs', -⟩ := Marshal.readNumber_eq .unsignedInt 4 _ h rfl rfl value.toNat_lt
      rw [read, hs', Option.map_some, UInt32.ofNat_toNat]
  | string value =>
      cases hvalue
      cases w <;> cases htype
      obtain ⟨s', hs', -⟩ := Marshal.readString_eq h (lt_trans hshort (by decide))
      rw [read, hs', Option.map_some]
  | stringAtom value =>
      cases hvalue
      cases w <;> cases htype
      obtain ⟨s', hs', -⟩ := Marshal.readString_eq h (lt_trans hshort (by decide))
      rw [read, hs', Option.map_some]

end StandardValue

namespace PropertyBase

variable {base : PropertyBase} {typeName : StringAtom} {marshal : Marshal}
  {block rest : List UInt8}

/-- The block is found where the names of the types are the same. -/
theorem loadPropertyBase_eq (typeName' : StringAtom) (hbase : base.dontSave = false)
    (htype : typeName.length < uint16Max) (hblock : block.length < 2 ^ 32)
    (h : Stream.Ahead marshal (bytes typeName block ++ rest)) :
    ∃ pBlock marshal', base.loadPropertyBase typeName' marshal =
        some (if typeName = typeName' then some pBlock else none, marshal') ∧
      pBlock.Shows (.ofBytes block) := by
  rw [bytes, List.append_assoc, List.append_assoc, List.append_assoc] at h
  obtain ⟨s₁, hs₁, h₁⟩ := Marshal.readNumber_eq .unsignedShort 2 version h rfl rfl (by decide)
  obtain ⟨s₂, hs₂, h₂⟩ := Marshal.readString_eq h₁ htype
  obtain ⟨s₃, hs₃, h₃⟩ := Marshal.readNumber_eq .unsignedInt 4 block.length h₂ rfl rfl hblock
  obtain ⟨pBlock, s₄, hs₄, hshows, -⟩ := Marshal.readBytesPtr_eq h₃
    (UInt64.toNat_ofNat_of_lt' (hblock.trans (by decide)))
  refine ⟨pBlock, s₄, ?_, hshows⟩
  rw [loadPropertyBase, hbase, if_neg Bool.false_ne_true, hs₁]
  simp only [Option.bind_eq_bind, Option.bind_some]
  rw [hs₂, Option.bind_some, hs₃, Option.bind_some, hs₄, Option.bind_some]
  by_cases heq : typeName = typeName'
  · rw [if_neg (not_not.mpr heq), if_neg (not_not.mpr rfl), if_pos heq]
  · rw [if_pos heq, if_neg heq]

/-- Nothing has been saved: the length of the name is read into a variable that is not
initialized. -/
theorem loadPropertyBase_nil (hbase : base.dontSave = false)
    (h : Stream.Shows marshal (.ofBytes [])) : base.loadPropertyBase typeName marshal = none := by
  have hnumber : marshal.readNumber .unsignedShort = some (0, marshal) := by
    have hread : Stream.read marshal (zeros 2) 2 = some (zeros 2, marshal) :=
      Marshal.read_nil h (by decide) (by decide)
    change Option.map _ (Option.bind (Stream.read marshal (zeros 2) 2) _) = _
    rw [hread]
    rfl
  have hstring : marshal.readString = none := by
    rw [Marshal.readString, loadShortStr, loadCounted, loadSize,
      Marshal.read_nil h (by decide) (by decide)]
    rfl
  rw [loadPropertyBase, hbase, if_neg Bool.false_ne_true, hnumber]
  simp only [Option.bind_eq_bind, Option.bind_some]
  rw [hstring, Option.bind_none]

/-- The upper half of the size of the external block is taken for the length of a name. -/
theorem readString_external {ext : List UInt8} (hext : ext.length < 2 ^ 32)
    (h : Stream.Ahead marshal (toBytes 2 (ext.length / 65536) ++ (ext ++ rest))) :
    ∃ n marshal' more, (n = 0 ∨ n = ext.length / 65536) ∧
      marshal.readString = some (ext.take n, marshal') ∧
        Stream.Ahead marshal' (more ++ rest) := by
  by_cases hmax : uint16Max ≤ ext.length / 65536
  · obtain ⟨s', hs', hahead⟩ := Marshal.readString_max hmax (by omega) h
    exact ⟨0, s', ext, .inl rfl, hs', hahead⟩
  · rw [Nat.not_le] at hmax
    have hlength : (ext.take (ext.length / 65536)).length = ext.length / 65536 :=
      List.length_take_of_le (by omega)
    have hsplit : toBytes 2 (ext.length / 65536) ++ (ext ++ rest) =
        stringBytes (ext.take (ext.length / 65536)) ++
          (ext.drop (ext.length / 65536) ++ rest) := by
      rw [stringBytes, hlength, List.append_assoc, ← List.append_assoc (ext.take _),
        List.take_append_drop]
    rw [hsplit] at h
    obtain ⟨s', hs', hahead⟩ := Marshal.readString_eq h (hlength.trans_lt hmax)
    exact ⟨_, s', _, .inr rfl, hs', hahead⟩

/-- The size of the external block is taken for a version and the length of a name, and the block
for the name. -/
theorem loadPropertyBase_external {ext : List UInt8} (hbase : base.dontSave = false)
    (hext : ext.length < 2 ^ 32) (hne : typeName ≠ []) (htype : typeName.length < 255)
    (hname : ext.length < 2 ^ 24 → ∀ n, ext.take n ≠ typeName)
    (h : Stream.Shows marshal (.ofBytes
      (toBytes 4 ext.length ++ (ext ++ bytes (Text.lit "ExternalProperty") [])))) :
    ∃ marshal', base.loadPropertyBase typeName marshal = some (none, marshal') := by
  have hsize : marshal.size.toNat = 4 + (ext.length + 24) := by
    rw [h.size_eq]
    simp only [ByteFile.ofBytes, List.length_append, length_toBytes, length_bytes]
    rfl
  have h₀ := h.ahead
  rw [Marshal.toBytes_four, List.append_assoc] at h₀
  obtain ⟨s₁, hs₁, h₁⟩ := Marshal.readNumber_ofBytes .unsignedShort (by decide) (by simp; rfl) h₀
  obtain ⟨n, s₂, more, hn, hs₂, h₂⟩ := readString_external hext h₁
  have hmismatch : ext.take n ≠ typeName := fun heq => by
    have hlength := congrArg List.length heq
    rw [List.length_take] at hlength
    have hpos := List.length_pos_iff.mpr hne
    exact hname (by omega) n heq
  -- the number behind the name is read from what is left of the external block and the base
  obtain ⟨bytes₃, rest₃, hlength₃, hsplit⟩ : ∃ bytes₃ rest₃ : List UInt8, bytes₃.length = 4 ∧
      more ++ bytes (Text.lit "ExternalProperty") [] = bytes₃ ++ rest₃ := by
    refine ⟨_, _, List.length_take_of_le ?_, (List.take_append_drop 4 _).symm⟩
    rw [List.length_append, length_bytes]
    omega
  rw [hsplit] at h₂
  obtain ⟨s₃, hs₃, f, hshows, -⟩ := Marshal.readNumber_ofBytes .unsignedInt (by decide)
    hlength₃.symm h₂
  have hcount := ofBytes_lt bytes₃
  rw [hlength₃] at hcount
  have hwrap : s₃.pos.toNat + (UInt64.ofNat (ofBytes bytes₃)).toNat < 2 ^ 64 := by
    have hpos := hshows.ordered.pos_le_toNat
    rw [Marshal.size_of_readNumber rfl hs₃, Marshal.size_of_readString hs₂,
      Marshal.size_of_readNumber rfl hs₁, hsize] at hpos
    rw [UInt64.toNat_ofNat_of_lt' (hcount.trans (by decide))]
    omega
  obtain ⟨⟨pBlock, s₄⟩, hs₄⟩ := Marshal.exists_readBytesPtr hwrap
  refine ⟨s₄, ?_⟩
  rw [loadPropertyBase, hbase, if_neg Bool.false_ne_true, hs₁]
  simp only [Option.bind_eq_bind, Option.bind_some]
  rw [hs₂, Option.bind_some, hs₃, Option.bind_some, hs₄, Option.bind_some, if_pos hmismatch]

end PropertyBase

end SRCommon
