import Mathlib.Algebra.Group.Nat.Defs
import Mathlib.Order.Lattice
import SRCommon.Lib.Splice

/-!
# Stream

`SR_HTYPES_NS::Stream`: a `malloc` block with a size, a position and a capacity
of 64 bits each. A byte of a block is `none` until something is stored in it,
and an operation is `none` where it would leave a block.
-/

namespace SRCommon

abbrev Cell := Option UInt8

/-- `SR_MAX`. -/
def srMax (a b : UInt64) : UInt64 := if a > b then a else b

/-- `m_data` is `none` for a null pointer. Its block holds at least `m_capacity` bytes. -/
structure Stream where
  size : UInt64
  pos : UInt64
  capacity : UInt64
  data : Option (List Cell)
  owned : capacity.toNat ≤ (data.getD []).length
  bounded : (data.getD []).length < 2 ^ 64

namespace Stream

/-- `Stream() = default`. -/
def empty : Stream := ⟨0, 0, 0, none, by decide, by decide⟩

def cells (s : Stream) : List Cell := s.data.getD []

/-- What `ToStringView` shows. -/
def contents (s : Stream) : List Cell := s.cells.take s.size.toNat

def allocate (size : UInt64) : List Cell := List.replicate size.toNat none

@[simp] theorem length_allocate (size : UInt64) : (allocate size).length = size.toNat := by
  simp [allocate]

theorem length_allocate_lt (size : UInt64) : (allocate size).length < 2 ^ 64 := by
  rw [length_allocate]
  exact size.toNat_lt

theorem length_splice_allocate {size : UInt64} {n : ℕ} (block : List Cell) (h : n ≤ size.toNat) :
    (splice (allocate size) 0 (block.take n)).length = size.toNat := by
  rw [length_splice_of_le, length_allocate]
  rw [length_allocate, List.length_take]
  omega

/-- A fresh block shows what has been copied into it. -/
theorem take_splice_allocate {size : UInt64} {n k : ℕ} {block : List Cell} (hn : n ≤ k)
    (hk : k ≤ block.length) :
    (splice (allocate size) 0 (block.take k)).take n = block.take n := by
  have hlength : (block.take k).length = k := List.length_take_of_le hk
  rw [take_splice_zero (hn.trans_eq hlength.symm), List.take_take, min_eq_left hn]

theorem length_map_splice {data : Option (List Cell)} {p : ℕ} {src : List Cell}
    (h : p + src.length ≤ (data.getD []).length) :
    ((data.map (splice · p src)).getD []).length = (data.getD []).length := by
  cases data with
  | none => rfl
  | some block => exact length_splice_of_le h

/-- `memcpy(m_data + offset, pSrc, count)`. -/
def store (s : Stream) (offset : UInt64) (pSrc : List Cell) (count : UInt64) : Option Stream :=
  if h : offset.toNat + count.toNat ≤ s.cells.length ∧ count.toNat ≤ pSrc.length then
    have hlen : ((s.data.map (splice · offset.toNat (pSrc.take count.toNat))).getD []).length =
        s.cells.length := length_map_splice (by rw [List.length_take, min_eq_left h.2]; exact h.1)
    some { s with
      data := s.data.map (splice · offset.toNat (pSrc.take count.toNat))
      owned := hlen ▸ s.owned
      bounded := hlen ▸ s.bounded }
  else none

/-! ## Constructors and assignments -/

/-- `Stream(const char* pData, uint64_t size)`. -/
def create (pData : List Cell) (size : UInt64) : Option Stream :=
  if size > 0 then
    let s : Stream := ⟨size, 0, size, some (allocate size), by simp, length_allocate_lt size⟩
    s.store 0 pData size
  else some empty

/-- `Stream(const std::string& str)`, which allocates a block for the empty string as well. -/
def ofString (str : List UInt8) : Option Stream :=
  let size := UInt64.ofNat str.length
  let s : Stream := ⟨size, 0, size, some (allocate size), by simp, length_allocate_lt size⟩
  s.store 0 (str.map some) size

/-- `Stream(const Stream& other)`. -/
def copy (other : Stream) : Stream where
  size := other.size
  pos := 0
  capacity := other.capacity
  data := other.data.map fun block =>
    splice (allocate other.capacity) 0 (block.take other.capacity.toNat)
  owned := by
    have h := other.owned
    cases hdata : other.data with
    | none => simpa [hdata] using h
    | some block => simp [length_splice_allocate block le_rfl]
  bounded := by
    have h := other.capacity.toNat_lt
    cases other.data with
    | none => simp
    | some block => simpa [length_splice_allocate block le_rfl] using h

/-- `operator=(const Stream& other)`. The block to copy from is read after `m_data` has been
replaced, and an `other` without a block leaves the old one in place. -/
def copyAssign (s other : Stream) (same : Bool) : Stream where
  size := other.size
  pos := 0
  capacity := other.capacity
  data :=
    match other.data with
    | some block =>
        let fresh := allocate other.capacity
        let source := if same then fresh else block
        some (splice fresh 0 (source.take other.capacity.toNat))
    | none => s.data
  owned := by
    have h := other.owned
    cases hdata : other.data with
    | none =>
        simp only [hdata, Option.getD_none, List.length_nil] at h
        simp only
        omega
    | some block => simp [length_splice_allocate _ le_rfl]
  bounded := by
    have h := other.capacity.toNat_lt
    cases other.data with
    | none => exact s.bounded
    | some block => simpa [length_splice_allocate _ le_rfl] using h

/-! ## Reading -/

/-- The `memcpy` and the advance that `Read` and `TryRead` end with. -/
def fetch (s : Stream) (pDst : List Cell) (count : UInt64) : Option (List Cell × Stream) :=
  if s.pos.toNat + count.toNat ≤ s.cells.length ∧ count.toNat ≤ pDst.length then
    some (splice pDst 0 ((s.cells.drop s.pos.toNat).take count.toNat),
      { s with pos := s.pos + count })
  else none

def tryRead (s : Stream) (pDst : List Cell) (count : UInt64) : Option (List Cell × Stream) :=
  if s.pos + count > s.size then some (pDst, s) else s.fetch pDst count

def read (s : Stream) (pDst : List Cell) (count : UInt64) : Option (List Cell × Stream) :=
  if count = 0 then some (pDst, s)
  else if s.pos + count > s.size then some (pDst, s)
  else s.fetch pDst count

/-! ## Writing -/

/-- The block `Reserve` replaces `m_data` with. -/
def reallocate (s : Stream) (capacity : UInt64) : List Cell :=
  match s.data with
  | some block => splice (allocate capacity) 0 (block.take s.capacity.toNat)
  | none => allocate capacity

theorem length_reallocate {s : Stream} {capacity : UInt64} (h : ¬s.capacity ≥ capacity) :
    (s.reallocate capacity).length = capacity.toNat := by
  have hlt := UInt64.lt_iff_toNat_lt.mp (UInt64.not_le.mp h)
  rw [reallocate]
  split
  · exact length_splice_allocate _ hlt.le
  · exact length_allocate capacity

def reserve (s : Stream) (capacity : UInt64) : Stream :=
  if h : s.capacity ≥ capacity then s
  else
    { s with
      capacity := capacity
      data := some (s.reallocate capacity)
      owned := (length_reallocate h).ge
      bounded := (length_reallocate h).trans_lt capacity.toNat_lt }

theorem le_capacity_reserve (s : Stream) (capacity : UInt64) :
    capacity ≤ (s.reserve capacity).capacity := by
  rw [reserve]
  split
  · assumption
  · exact UInt64.le_refl capacity

/-- What `Write` does before it copies. -/
def grow (s : Stream) (count : UInt64) : Stream :=
  let s := { s with size := s.size + count }
  if s.size ≥ s.capacity then s.reserve (srMax (s.size * 2) 64) else s

def write (s : Stream) (pSrc : List Cell) (count : UInt64) : Option Stream :=
  ((s.grow count).store s.pos pSrc count).map fun s => { s with pos := s.pos + count }

def setData (s : Stream) (pData : List Cell) (size : UInt64) : Option Stream :=
  let reserved := s.reserve size
  have hsize := UInt64.le_iff_toNat_le.mp (s.le_capacity_reserve size)
  let resized :=
    { reserved with size := size, capacity := size, owned := hsize.trans reserved.owned }
  store resized 0 pData size

def setPosition (s : Stream) (position : UInt64) : Stream := { s with pos := position }

def skip (s : Stream) (count : UInt64) : Stream := { s with pos := s.pos + count }

/-! ## What the operations leave behind -/

section

variable {s : Stream} {pSrc : List Cell} {count : UInt64}

/-- The invariant the bounds of `Write` rely on. -/
structure Ordered (s : Stream) : Prop where
  pos_le : s.pos ≤ s.size
  size_le : s.size ≤ s.capacity

/-- Neither the new size nor the capacity `Write` asks for wraps around. -/
def HasRoom (s : Stream) (count : ℕ) : Prop :=
  s.size.toNat + count ≤ s.capacity.toNat ∨ s.size.toNat + count < 2 ^ 63

theorem Ordered.pos_le_toNat (h : s.Ordered) : s.pos.toNat ≤ s.size.toNat :=
  UInt64.le_iff_toNat_le.mp h.pos_le

theorem Ordered.size_le_toNat (h : s.Ordered) : s.size.toNat ≤ s.capacity.toNat :=
  UInt64.le_iff_toNat_le.mp h.size_le

theorem Ordered.of_toNat (hpos : s.pos.toNat ≤ s.size.toNat)
    (hsize : s.size.toNat ≤ s.capacity.toNat) : s.Ordered :=
  ⟨UInt64.le_iff_toNat_le.mpr hpos, UInt64.le_iff_toNat_le.mpr hsize⟩

theorem capacity_le_length (s : Stream) : s.capacity.toNat ≤ s.cells.length := s.owned

theorem Ordered.size_le_length (h : s.Ordered) : s.size.toNat ≤ s.cells.length :=
  h.size_le_toNat.trans s.capacity_le_length

theorem Ordered.length_contents (h : s.Ordered) : s.contents.length = s.size.toNat := by
  rw [contents, List.length_take]
  exact min_eq_left h.size_le_length

theorem cells_map_splice (data : Option (List Cell)) {p : ℕ} {src : List Cell}
    (h : p + src.length ≤ (data.getD []).length) :
    (data.map (splice · p src)).getD [] = splice (data.getD []) p src := by
  cases data with
  | some block => rfl
  | none =>
      have hnil : src = [] := by
        simp only [Option.getD_none, List.length_nil] at h
        exact List.eq_nil_of_length_eq_zero (by omega)
      simp [hnil]

theorem store_eq_some {offset : UInt64} (hin : offset.toNat + count.toNat ≤ s.cells.length)
    (hsrc : count.toNat ≤ pSrc.length) :
    ∃ s', s.store offset pSrc count = some s' ∧ s'.size = s.size ∧ s'.pos = s.pos ∧
      s'.capacity = s.capacity ∧
      s'.cells = splice s.cells offset.toNat (pSrc.take count.toNat) := by
  rw [store, dif_pos ⟨hin, hsrc⟩]
  refine ⟨_, rfl, rfl, rfl, rfl, cells_map_splice s.data ?_⟩
  rw [List.length_take, min_eq_left hsrc]
  exact hin

@[simp] theorem size_reserve (s : Stream) (capacity : UInt64) :
    (s.reserve capacity).size = s.size := by
  rw [reserve]
  split <;> rfl

@[simp] theorem pos_reserve (s : Stream) (capacity : UInt64) :
    (s.reserve capacity).pos = s.pos := by
  rw [reserve]
  split <;> rfl

/-- Storing at the front of a block puts the source below the count. -/
theorem store_zero_eq_some (hin : count.toNat ≤ s.cells.length) (hsrc : count.toNat ≤ pSrc.length) :
    ∃ s', s.store 0 pSrc count = some s' ∧ s'.size = s.size ∧ s'.pos = s.pos ∧
      s'.capacity = s.capacity ∧ s'.cells.take count.toNat = pSrc.take count.toNat := by
  obtain ⟨s', hstore, hsize, hpos, hcapacity, hcells⟩ :=
    store_eq_some (show (0 : UInt64).toNat + count.toNat ≤ s.cells.length by simpa using hin) hsrc
  refine ⟨s', hstore, hsize, hpos, hcapacity, ?_⟩
  rw [hcells, UInt64.toNat_zero, take_splice_zero (by simp [hsrc]), List.take_take, min_self]

theorem create_eq_some (h : count.toNat ≤ pSrc.length) :
    ∃ s, create pSrc count = some s ∧ s.size = count ∧ s.pos = 0 ∧ s.capacity = count ∧
      s.cells.take count.toNat = pSrc.take count.toNat := by
  rw [create]
  split
  · exact store_zero_eq_some (length_allocate count).ge h
  · rename_i hzero
    have hcount : count = 0 := by
      rw [← UInt64.toNat_inj]
      simpa using UInt64.le_iff_toNat_le.mp (UInt64.not_lt.mp hzero)
    subst hcount
    exact ⟨empty, rfl, rfl, rfl, rfl, rfl⟩

theorem ofString_eq_some {str : List UInt8} (h : str.length < 2 ^ 64) :
    ∃ s, ofString str = some s ∧ s.size.toNat = str.length ∧ s.pos = 0 ∧ s.capacity = s.size ∧
      s.cells.take str.length = str.map some := by
  have hcount : (UInt64.ofNat str.length).toNat = str.length := UInt64.toNat_ofNat_of_lt' h
  obtain ⟨s, hs, hsize, hpos, hcapacity, hcells⟩ :=
    store_zero_eq_some (s := ⟨UInt64.ofNat str.length, 0, UInt64.ofNat str.length,
      some (allocate (UInt64.ofNat str.length)), by simp, length_allocate_lt _⟩)
      (length_allocate _).ge (show _ ≤ (str.map some).length by simp [hcount])
  refine ⟨s, hs, by rw [hsize, hcount], hpos, by rw [hcapacity, hsize], ?_⟩
  rw [hcount] at hcells
  rw [hcells]
  exact List.take_of_length_le (by simp)

theorem setData_eq_some (s : Stream) (h : count.toNat ≤ pSrc.length) :
    ∃ s', s.setData pSrc count = some s' ∧ s'.size = count ∧ s'.pos = s.pos ∧
      s'.capacity = count ∧ s'.cells.take count.toNat = pSrc.take count.toNat := by
  have hroom := UInt64.le_iff_toNat_le.mp (s.le_capacity_reserve count)
  have hlength := hroom.trans (s.reserve count).owned
  obtain ⟨s', hstore, hsize, hpos, hcapacity, hcells⟩ :=
    store_zero_eq_some (s := ⟨count, (s.reserve count).pos, count, (s.reserve count).data,
      hlength, (s.reserve count).bounded⟩) hlength h
  exact ⟨s', hstore, hsize, by rw [hpos, pos_reserve], hcapacity, hcells⟩

theorem take_cells_copy (s : Stream) {n : ℕ} (hn : n ≤ s.capacity.toNat) :
    s.copy.cells.take n = s.cells.take n := by
  have howned := s.owned
  simp only [copy, cells]
  cases hdata : s.data with
  | none => rfl
  | some block =>
      simp only [hdata, Option.getD_some] at howned
      exact take_splice_allocate hn howned

/-- Assigning another object copies it, whatever was held before. -/
theorem take_cells_copyAssign (s other : Stream) {n : ℕ} (hn : n ≤ other.capacity.toNat) :
    (s.copyAssign other false).cells.take n = other.cells.take n := by
  have howned := other.owned
  simp only [copyAssign, cells]
  cases hdata : other.data with
  | none =>
      simp only [hdata, Option.getD_none, List.length_nil] at howned
      obtain rfl : n = 0 := by omega
      simp
  | some block =>
      simp only [hdata, Option.getD_some] at howned
      exact take_splice_allocate hn howned

theorem capacity_le_reserve (s : Stream) (capacity : UInt64) :
    s.capacity ≤ (s.reserve capacity).capacity := by
  rw [reserve]
  split
  · exact UInt64.le_refl s.capacity
  · rename_i h
    exact UInt64.le_of_lt (UInt64.not_le.mp h)

/-- Growth copies the bytes below the old capacity. -/
theorem take_cells_reserve (s : Stream) (capacity : UInt64) {n : ℕ} (hn : n ≤ s.capacity.toNat) :
    (s.reserve capacity).cells.take n = s.cells.take n := by
  have howned := s.owned
  rw [reserve]
  split
  · rfl
  · change (s.reallocate capacity).take n = (s.data.getD []).take n
    rw [reallocate]
    cases hdata : s.data with
    | none =>
        simp only [hdata, Option.getD_none, List.length_nil] at howned
        obtain rfl : n = 0 := by omega
        simp
    | some block =>
        simp only [hdata, Option.getD_some] at howned ⊢
        exact take_splice_allocate hn howned

@[simp] theorem size_grow (s : Stream) (count : UInt64) :
    (s.grow count).size = s.size + count := by
  rw [grow]
  split <;> simp

@[simp] theorem pos_grow (s : Stream) (count : UInt64) : (s.grow count).pos = s.pos := by
  rw [grow]
  split <;> simp

theorem take_cells_grow (s : Stream) (count : UInt64) {n : ℕ} (hn : n ≤ s.capacity.toNat) :
    (s.grow count).cells.take n = s.cells.take n := by
  rw [grow]
  split
  · exact take_cells_reserve _ _ hn
  · rfl

theorem le_srMax_left (a b : UInt64) : a ≤ srMax a b := by
  rw [srMax]
  split
  · exact UInt64.le_refl a
  · rename_i h
    exact UInt64.not_lt.mp h

theorem HasRoom.toNat_size_add (h : s.HasRoom count.toNat) :
    (s.size + count).toNat = s.size.toNat + count.toNat := by
  have hcapacity := s.capacity.toNat_lt
  rw [UInt64.toNat_add]
  rcases h with h | h
  · omega
  · omega

theorem HasRoom.size_grow_le (h : s.HasRoom count.toNat) :
    s.size.toNat + count.toNat ≤ (s.grow count).capacity.toNat := by
  have hsize := h.toNat_size_add
  let asked := srMax ((s.size + count) * 2) 64
  rw [grow]
  simp only
  split
  · rename_i hfull
    rcases h with h | h
    · have hle := capacity_le_reserve { s with size := s.size + count } asked
      exact h.trans (UInt64.le_iff_toNat_le.mp hle)
    · have hle := le_capacity_reserve { s with size := s.size + count } asked
      have htwice := UInt64.le_iff_toNat_le.mp (UInt64.le_trans (le_srMax_left _ 64) hle)
      rw [UInt64.toNat_mul, hsize] at htwice
      simp only [UInt64.reduceToNat] at htwice
      exact le_trans (by omega) htwice
  · rename_i hfree
    have hlt := UInt64.lt_iff_toNat_lt.mp (UInt64.not_le.mp hfree)
    rw [hsize] at hlt
    exact hlt.le

/-- A `Write` with room stores below the capacity and moves the size and the position alike. -/
theorem Ordered.write_eq_some (h : s.Ordered) (hroom : s.HasRoom count.toNat)
    (hsrc : count.toNat ≤ pSrc.length) :
    ∃ s', s.write pSrc count = some s' ∧ s'.size.toNat = s.size.toNat + count.toNat ∧
      s'.pos.toNat = s.pos.toNat + count.toNat ∧ s'.capacity = (s.grow count).capacity ∧
      s'.cells = splice (s.grow count).cells s.pos.toNat (pSrc.take count.toNat) := by
  have hpos := h.pos_le_toNat
  have hsize := hroom.toNat_size_add
  have hcapacity := hroom.size_grow_le
  have hlength := (s.grow count).capacity_le_length
  obtain ⟨s', hstore, hsize', hpos', hcapacity', hcells⟩ :=
    store_eq_some (show s.pos.toNat + count.toNat ≤ (s.grow count).cells.length by omega) hsrc
  refine ⟨{ s' with pos := s'.pos + count }, ?_, ?_, ?_, hcapacity', hcells⟩
  · rw [write, hstore, Option.map_some]
  · rw [hsize', size_grow, hsize]
  · simp only
    have hlt := (s.size + count).toNat_lt
    rw [hpos', pos_grow, UInt64.toNat_add]
    omega

theorem fetch_eq_some {pDst : List Cell} (hin : s.pos.toNat + count.toNat ≤ s.cells.length)
    (hdst : count.toNat ≤ pDst.length) :
    s.fetch pDst count = some (splice pDst 0 ((s.cells.drop s.pos.toNat).take count.toNat),
      { s with pos := s.pos + count }) := by
  rw [fetch, if_pos ⟨hin, hdst⟩]

theorem fetch_eq_none {pDst : List Cell} (hout : s.cells.length < s.pos.toNat + count.toNat) :
    s.fetch pDst count = none := by
  rw [fetch, if_neg]
  intro h
  omega

/-- The comparison of `Read` and `TryRead` when the sum does not wrap around. -/
theorem lt_pos_add_iff {limit : UInt64} (hwrap : s.pos.toNat + count.toNat < 2 ^ 64) :
    s.pos + count > limit ↔ limit.toNat < s.pos.toNat + count.toNat := by
  rw [gt_iff_lt, UInt64.lt_iff_toNat_lt, UInt64.toNat_add, Nat.mod_eq_of_lt hwrap]

/-- An advance inside the size does not wrap around. -/
theorem toNat_pos_skip (h : s.pos.toNat + count.toNat ≤ s.size.toNat) :
    (s.skip count).pos.toNat = s.pos.toNat + count.toNat := by
  have hlt := s.size.toNat_lt
  rw [skip, UInt64.toNat_add, Nat.mod_eq_of_lt (by omega)]

/-- `Read` with a count of zero is no exception. -/
theorem Ordered.read_eq_tryRead (h : s.Ordered) (pDst : List Cell) (count : UInt64) :
    s.read pDst count = s.tryRead pDst count := by
  rw [read, tryRead]
  split
  · rename_i hzero
    subst hzero
    have hpos := h.pos_le_toNat
    have hlength := h.size_le_length
    have hin : s.pos.toNat + (0 : UInt64).toNat ≤ s.cells.length := hpos.trans hlength
    rw [UInt64.add_zero, if_neg (UInt64.not_lt.mpr h.pos_le), fetch_eq_some hin (Nat.zero_le _)]
    simp
  · rfl

theorem Ordered.tryRead_eq_some (h : s.Ordered) {pDst : List Cell}
    (hdst : count.toNat ≤ pDst.length) (hwrap : s.pos.toNat + count.toNat < 2 ^ 64) :
    s.tryRead pDst count =
      if s.pos.toNat + count.toNat ≤ s.size.toNat then
        some (splice pDst 0 ((s.cells.drop s.pos.toNat).take count.toNat),
          { s with pos := s.pos + count })
      else some (pDst, s) := by
  have hlength := h.size_le_length
  rw [tryRead]
  split
  · rename_i hgt
    rw [if_neg (Nat.not_le.mpr ((lt_pos_add_iff hwrap).mp hgt))]
  · rename_i hle
    have hin := Nat.not_lt.mp (mt (lt_pos_add_iff hwrap).mpr hle)
    rw [if_pos hin, fetch_eq_some (hin.trans hlength) hdst]

end

end Stream

end SRCommon
