import SRCommon.Types.Marshal
import SRCommon.Types.StreamBounds

/-!
# The bounds of the reads

`Read` and `TryRead` compare the end of what is asked for with the size,
`ReadBytes` and `ReadBytesPtr` with the capacity, and all of them add in 64
bits.
-/

namespace SRCommon

/-- The reads, with the buffers they fill or the stream they return. -/
inductive ReadCall where
  | read (pDst : List Cell)
  | tryRead (pDst : List Cell)
  | readBytes
  | readBytesPtr

namespace ReadCall

/-- A buffer that is passed has room for the count. -/
def Accepts (count : UInt64) : ReadCall → Prop
  | read pDst | tryRead pDst => count.toNat ≤ pDst.length
  | readBytes | readBytesPtr => True

/-- What is in the buffer or in the stream afterwards; a null pointer holds nothing. -/
def deliver (s : Marshal) (count : UInt64) : ReadCall → Option (Option (List Cell) × Marshal)
  | read pDst => (Stream.read s pDst count).map fun r => (some r.1, r.2)
  | tryRead pDst => (Stream.tryRead s pDst count).map fun r => (some r.1, r.2)
  | readBytes => (s.readBytes count).map fun r => (some r.1.contents, r.2)
  | readBytesPtr => (s.readBytesPtr count).map fun r => (r.1.map Stream.contents, r.2)

def filled (bytes : List Cell) : ReadCall → Option (List Cell)
  | read pDst | tryRead pDst => some (splice pDst 0 bytes)
  | readBytes | readBytesPtr => some bytes

def unfilled : ReadCall → Option (List Cell)
  | read pDst | tryRead pDst => some pDst
  | readBytes => some []
  | readBytesPtr => none

/-- The bytes asked for are delivered and passed if the size covers them, else nothing happens. -/
def StaysInside (c : ReadCall) (s : Marshal) (count : UInt64) : Prop :=
  c.deliver s count =
    if s.pos.toNat + count.toNat ≤ s.size.toNat then
      some (c.filled ((s.contents.drop s.pos.toNat).take count.toNat), s.skip count)
    else some (c.unfilled, s)

/-- What follows when the comparison is passed. -/
def copyOut (s : Marshal) (count : UInt64) : ReadCall → Option (Option (List Cell) × Marshal)
  | read pDst | tryRead pDst => (Stream.fetch s pDst count).map fun r => (some r.1, r.2)
  | readBytes | readBytesPtr =>
      (Stream.create (s.cells.drop s.pos.toNat) count).map fun t => (some t.contents, s.skip count)

/-- What the comparison compares with. -/
def limit (s : Marshal) : ReadCall → UInt64
  | read _ | tryRead _ => s.size
  | readBytes | readBytesPtr => s.capacity

end ReadCall

namespace Stream

variable {s : Stream} {count : UInt64}

theorem take_drop_contents (h : s.pos.toNat + count.toNat ≤ s.size.toNat) :
    (s.contents.drop s.pos.toNat).take count.toNat =
      (s.cells.drop s.pos.toNat).take count.toNat := by
  rw [contents, List.drop_take, List.take_take, min_eq_left (by omega)]

/-- A sum that wraps around passes the comparison and points out of the block. -/
theorem Ordered.not_lt_pos_add (h : s.Ordered) {limit : UInt64} (hlimit : s.size ≤ limit)
    (hwrap : 2 ^ 64 ≤ s.pos.toNat + count.toNat) : ¬s.pos + count > limit := by
  have hpos := h.pos_le_toNat
  have hsize := UInt64.le_iff_toNat_le.mp hlimit
  have hcount := count.toNat_lt
  have hlt := s.pos.toNat_lt
  rw [gt_iff_lt, UInt64.lt_iff_toNat_lt, UInt64.toNat_add]
  omega

theorem create_eq_none {pData : List Cell} (h : pData.length < count.toNat) :
    create pData count = none := by
  have hpos : count > 0 := by
    rw [gt_iff_lt, UInt64.lt_iff_toNat_lt, UInt64.toNat_zero]
    omega
  rw [create, if_pos hpos]
  simp only [store]
  rw [dif_neg]
  rintro ⟨-, hsrc⟩
  omega

/-- The block of the returned stream is filled from the position on. -/
theorem create_drop_cells (h : s.pos.toNat + count.toNat ≤ s.capacity.toNat) :
    ∃ t, create (s.cells.drop s.pos.toNat) count = some t ∧
      t.contents = (s.cells.drop s.pos.toNat).take count.toNat := by
  have hlength := s.capacity_le_length
  obtain ⟨t, ht, hsize, -, -, hcells⟩ :=
    create_eq_some (show count.toNat ≤ (s.cells.drop s.pos.toNat).length by
      rw [List.length_drop]
      omega)
  refine ⟨t, ht, ?_⟩
  rw [contents, hsize, hcells]

end Stream

namespace ReadCall

variable {s : Marshal} {c : ReadCall} {count : UInt64}

theorem size_le_limit (h : s.Ordered) (c : ReadCall) : s.size ≤ c.limit s := by
  cases c with
  | read | tryRead => exact UInt64.le_refl s.size
  | readBytes | readBytesPtr => exact h.size_le

/-- The four reads are one comparison and a copy. -/
theorem deliver_eq (h : s.Ordered) (c : ReadCall) (count : UInt64) :
    c.deliver s count =
      if s.pos + count > c.limit s then some (c.unfilled, s) else c.copyOut s count := by
  have htryRead (pDst : List Cell) : (tryRead pDst).deliver s count =
      if s.pos + count > s.size then some (some pDst, s) else (tryRead pDst).copyOut s count := by
    rw [deliver, Stream.tryRead, apply_ite (Option.map _)]
    rfl
  cases c with
  | read pDst =>
      rw [deliver, h.read_eq_tryRead]
      exact htryRead pDst
  | tryRead pDst => exact htryRead pDst
  | readBytes =>
      rw [deliver, Marshal.readBytes, apply_ite (Option.map _), Option.map_map]
      rfl
  | readBytesPtr =>
      rw [deliver, Marshal.readBytesPtr, apply_ite (Option.map _), Option.map_map]
      rfl

/-- Inside the limit the bytes of the block are delivered, written or not. -/
theorem deliver_of_le (h : s.Ordered) (hc : c.Accepts count)
    (hwrap : s.pos.toNat + count.toNat < 2 ^ 64)
    (hin : s.pos.toNat + count.toNat ≤ (c.limit s).toNat) :
    c.deliver s count =
      some (c.filled ((s.cells.drop s.pos.toNat).take count.toNat), s.skip count) := by
  rw [deliver_eq h, if_neg (mt (Stream.lt_pos_add_iff hwrap).mp (by omega))]
  cases c with
  | read pDst | tryRead pDst =>
      rw [copyOut, Stream.fetch_eq_some (hin.trans h.size_le_length) hc]
      rfl
  | readBytes | readBytesPtr =>
      obtain ⟨t, ht, hcontents⟩ := Stream.create_drop_cells hin
      rw [copyOut, ht, ← hcontents]
      rfl

theorem deliver_of_lt (h : s.Ordered) (hwrap : s.pos.toNat + count.toNat < 2 ^ 64)
    (hout : (c.limit s).toNat < s.pos.toNat + count.toNat) :
    c.deliver s count = some (c.unfilled, s) := by
  rw [deliver_eq h, if_pos ((Stream.lt_pos_add_iff hwrap).mpr hout)]

theorem deliver_of_wrap (h : s.Ordered) (hwrap : 2 ^ 64 ≤ s.pos.toNat + count.toNat) :
    c.deliver s count = none := by
  have hshort : s.cells.length < s.pos.toNat + count.toNat := lt_of_lt_of_le s.bounded hwrap
  rw [deliver_eq h, if_neg (h.not_lt_pos_add (size_le_limit h c) hwrap)]
  cases c with
  | read pDst | tryRead pDst =>
      rw [copyOut, Stream.fetch_eq_none hshort]
      rfl
  | readBytes | readBytesPtr =>
      have hpos := h.pos_le_toNat.trans h.size_le_length
      rw [copyOut, Stream.create_eq_none (by rw [List.length_drop]; omega)]
      rfl

/-- A read keeps its bounds exactly if the sum does not wrap around and no byte between the size
and the limit is asked for. -/
theorem staysInside_iff (h : s.Ordered) (hc : c.Accepts count) :
    c.StaysInside s count ↔ s.pos.toNat + count.toNat < 2 ^ 64 ∧
      (s.pos.toNat + count.toNat ≤ s.size.toNat ∨
        (c.limit s).toNat < s.pos.toNat + count.toNat) := by
  have hlimit := UInt64.le_iff_toNat_le.mp (size_le_limit h c)
  rw [StaysInside]
  constructor
  · intro hstays
    have hwrap : s.pos.toNat + count.toNat < 2 ^ 64 := by
      by_contra hge
      rw [deliver_of_wrap h (Nat.not_lt.mp hge)] at hstays
      split at hstays <;> cases hstays
    refine ⟨hwrap, ?_⟩
    by_contra hbetween
    rw [not_or, Nat.not_le, Nat.not_lt] at hbetween
    obtain ⟨hout, hin⟩ := hbetween
    rw [deliver_of_le h hc hwrap hin, if_neg (by omega), Option.some.injEq, Prod.mk.injEq] at hstays
    have hpos : (s.pos + count).toNat = s.pos.toNat := congrArg (fun t => t.pos.toNat) hstays.2
    have hle := h.pos_le_toNat
    rw [UInt64.toNat_add, Nat.mod_eq_of_lt hwrap] at hpos
    omega
  · rintro ⟨hwrap, hin | hout⟩
    · rw [if_pos hin, Stream.take_drop_contents hin]
      exact deliver_of_le h hc hwrap (hin.trans hlimit)
    · rw [if_neg (by omega)]
      exact deliver_of_lt h hwrap hout

/-- Two bytes were given and four reserved. -/
def sampleMarshal : Marshal :=
  ⟨2, 0, 4, some [some 97, some 98, none, none], by decide, by decide⟩

theorem staysInside_iff_sample : readBytes.StaysInside sampleMarshal 2 :=
  (staysInside_iff ⟨by decide, by decide⟩ (show readBytes.Accepts 2 from trivial)).mpr
    ⟨by decide, Or.inl (by decide)⟩

/-- A third byte is delivered, which was never written. -/
theorem not_staysInside_of_capacity :
    ¬∀ (s : Marshal) (c : ReadCall) (count : UInt64), s.Ordered → c.Accepts count →
      c.StaysInside s count := by
  intro hall
  have hstays := hall sampleMarshal readBytes 3 ⟨by decide, by decide⟩ trivial
  have hpos := congrArg (Option.map fun r => r.2.pos) hstays
  exact absurd hpos (by decide)

end ReadCall

end SRCommon
