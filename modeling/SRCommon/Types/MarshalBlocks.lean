import SRCommon.Common.MarshalFormats
import SRCommon.Types.Marshal

/-!
# Blocks in a marshal

A marshal with known bytes is appended to another one, and a block of bytes is
cut out of a marshal again.
-/

namespace SRCommon

open LittleEndian MarshalUtils

namespace Stream

variable {s : Stream} {bytes : List UInt8}

def Carries (s : Stream) (bytes : List UInt8) : Prop :=
  ∃ f : ByteFile, s.Shows f ∧ f.contents = bytes

theorem Carries.toNat_size (h : s.Carries bytes) : s.size.toNat = bytes.length := by
  obtain ⟨f, hshows, rfl⟩ := h
  exact hshows.size_eq

theorem Carries.contents_eq (h : s.Carries bytes) : s.contents = bytes.map some := by
  obtain ⟨f, hshows, rfl⟩ := h
  exact hshows.contents_eq

theorem Carries.take_cells (h : s.Carries bytes) : s.cells.take bytes.length = bytes.map some := by
  have hcontents := h.contents_eq
  rw [Stream.contents, h.toNat_size] at hcontents
  exact hcontents

theorem Carries.length_le (h : s.Carries bytes) : bytes.length ≤ s.cells.length := by
  have hlength := congrArg List.length h.take_cells
  rw [List.length_take, List.length_map] at hlength
  omega

theorem Carries.copy (h : s.Carries bytes) : s.copy.Carries bytes := by
  obtain ⟨f, hshows, rfl⟩ := h
  exact ⟨_, hshows.copy, rfl⟩

theorem Carries.valid (h : s.Carries bytes) (hne : bytes ≠ []) : Marshal.valid s = true := by
  rw [Marshal.valid, Option.isSome_iff_ne_none]
  intro hnone
  have hlength := h.length_le
  have hcells : s.cells = [] := by rw [Stream.cells, hnone, Option.getD_none]
  rw [hcells, List.length_nil] at hlength
  exact hne (List.eq_nil_of_length_eq_zero (by omega))

/-- A marshal carries one list of bytes. -/
theorem Carries.unique {bytes' : List UInt8} (h : s.Carries bytes) (h' : s.Carries bytes') :
    bytes = bytes' :=
  List.map_injective_iff.mpr (Option.some_injective _) (h.contents_eq.symm.trans h'.contents_eq)

theorem Shows.carries (h : s.Shows (.ofBytes bytes)) : s.Carries bytes := ⟨_, h, rfl⟩

theorem Shows.ahead (h : s.Shows (.ofBytes bytes)) : s.Ahead bytes := ⟨_, h, List.drop_zero⟩

theorem shows_create {pData : List Cell} {count : UInt64} (hcount : count.toNat = bytes.length)
    (hbytes : pData.take bytes.length = bytes.map some) :
    ∃ s, create pData count = some s ∧ s.Shows (.ofBytes bytes) := by
  have hlength := congrArg List.length hbytes
  rw [List.length_take, List.length_map] at hlength
  obtain ⟨s, hs, hsize, hpos, hcapacity, hcells⟩ :=
    create_eq_some (show count.toNat ≤ pData.length by omega)
  have hsize' : s.size.toNat = bytes.length := by rw [hsize, hcount]
  refine ⟨s, hs, .of_toNat ?_ ?_, hsize', ?_, ?_⟩
  · rw [hpos]
    exact Nat.zero_le _
  · rw [hsize, hcapacity]
  · rw [hpos]
    rfl
  · rw [contents, hsize, hcells, hcount, hbytes]
    rfl

theorem carries_create {pData : List Cell} {count : UInt64} (hcount : count.toNat = bytes.length)
    (hbytes : pData.take bytes.length = bytes.map some) :
    ∃ s, create pData count = some s ∧ s.Carries bytes := by
  obtain ⟨s, hs, hshows⟩ := shows_create hcount hbytes
  exact ⟨s, hs, hshows.carries⟩

theorem ahead_ofString (hlength : bytes.length < 2 ^ 64) :
    ∃ s, ofString bytes = some s ∧ s.Ahead bytes := by
  obtain ⟨s, f, out, hs, hf, hshows⟩ := shows_empty.answer (r := .ofString ⟨bytes, hlength⟩)
    trivial trivial trivial
  obtain ⟨t, ht, heq⟩ := Option.map_eq_some_iff.mp hs
  cases heq
  cases hf
  exact ⟨s, ht, _, hshows, List.drop_zero⟩

end Stream

namespace Marshal

variable {s chunk : Marshal} {bytes done rest : List UInt8}

theorem viewIVector3_eq (h : s.Carries bytes) (hlength : IVector3.sizeOf ≤ bytes.length) :
    s.viewIVector3 0 = some (.ofBytes (bytes.take IVector3.sizeOf)) := by
  have hcells : s.cells.take IVector3.sizeOf = (bytes.take IVector3.sizeOf).map some := by
    rw [List.map_take, ← h.take_cells, List.take_take, min_eq_left hlength]
  rw [viewIVector3, if_pos, List.drop_zero, hcells, known_map_some, Option.map_some]
  rw [Nat.zero_add]
  exact hlength.trans h.length_le

theorem append_eq (h : Stream.Holds s done) (hchunk : chunk.Carries bytes) (hne : bytes ≠ [])
    (hroom : done.length + bytes.length < 2 ^ 63) :
    ∃ s', s.append chunk = some s' ∧ Stream.Holds s' (done ++ bytes) := by
  have hsize := hchunk.toNat_size
  obtain ⟨s', hs', hholds⟩ := h.write bytes chunk.size hsize hroom
  refine ⟨s', ?_, hholds⟩
  have hpos : chunk.size > 0 := by
    rw [gt_iff_lt, UInt64.lt_iff_toNat_lt, hsize]
    exact List.length_pos_iff.mpr hne
  rw [append, if_pos ⟨hchunk.valid hne, hpos⟩, ← hs',
    ← Stream.write_take s (hsize.le.trans hchunk.length_le), hsize, hchunk.take_cells]

/-- A block in front of the position is cut out and passed. -/
theorem readBytesPtr_eq (h : Stream.Ahead s (bytes ++ rest)) {count : UInt64}
    (hcount : count.toNat = bytes.length) :
    ∃ chunk s', s.readBytesPtr count = some (some chunk, s') ∧ chunk.Shows (.ofBytes bytes) ∧
      Stream.Ahead s' rest := by
  obtain ⟨f, hshows, hahead⟩ := h
  have hlength := congrArg List.length hahead
  have hinside := f.inside
  rw [List.length_drop, List.length_append] at hlength
  have hin : s.pos.toNat + count.toNat ≤ s.size.toNat := by
    rw [hshows.pos_eq, hshows.size_eq]
    omega
  have hfits : ¬s.pos + count > s.capacity := by
    have hlt := s.size.toNat_lt
    rw [Stream.lt_pos_add_iff (by omega), Nat.not_lt]
    exact hin.trans hshows.ordered.size_le_toNat
  have hbytes : (s.cells.drop s.pos.toNat).take bytes.length = bytes.map some := by
    rw [hshows.take_drop_cells (by omega), hahead, List.take_left]
  obtain ⟨chunk, hchunk, hshown⟩ := Stream.shows_create hcount hbytes
  refine ⟨chunk, s.skip count, ?_, hshown, ?_⟩
  · rw [readBytesPtr, if_neg hfits, hchunk, Option.map_some]
  · have hin' : f.cursor + count.toNat ≤ f.contents.length := by omega
    have hdst : count.toNat ≤ (List.replicate count.toNat (none : Cell)).length := by
      rw [List.length_replicate]
    refine ⟨_, (hshows.tryRead_of_le hdst hin').2, ?_⟩
    change f.contents.drop (f.cursor + count.toNat) = rest
    rw [← List.drop_drop, hahead, hcount, List.drop_left]

theorem readBytes_eq (h : Stream.Ahead s (bytes ++ rest)) {count : UInt64}
    (hcount : count.toNat = bytes.length) :
    ∃ chunk s', s.readBytes count = some (chunk, s') ∧ chunk.Shows (.ofBytes bytes) ∧
      Stream.Ahead s' rest := by
  obtain ⟨chunk, s', hread, hshown, hahead⟩ := readBytesPtr_eq h hcount
  refine ⟨chunk, s', ?_, hshown, hahead⟩
  rw [readBytesPtr] at hread
  rw [readBytes]
  split at hread
  · cases hread
  · obtain ⟨marshal, hmarshal, heq⟩ := Option.map_eq_some_iff.mp hread
    cases heq
    rw [if_neg ‹_›, hmarshal, Option.map_some]

/-- A count without a wrapped sum is answered, by a null pointer where the block is too small. -/
theorem exists_readBytesPtr {count : UInt64} (hwrap : s.pos.toNat + count.toNat < 2 ^ 64) :
    ∃ r, s.readBytesPtr count = some r := by
  rw [readBytesPtr]
  split
  · exact ⟨_, rfl⟩
  · rename_i hle
    rw [Stream.lt_pos_add_iff hwrap, Nat.not_lt] at hle
    have hlength := s.capacity_le_length
    have hrest : count.toNat ≤ (s.cells.drop s.pos.toNat).length := by
      rw [List.length_drop]
      omega
    obtain ⟨t, ht, -⟩ := Stream.create_eq_some hrest
    rw [ht]
    exact ⟨_, rfl⟩

end Marshal

end SRCommon
