import SRCommon.Common.MarshalFormats
import SRCommon.Types.Marshal

/-!
# Round trip of typed values

Values are written to an empty marshal one after the other, the position is set
back to zero and the same types are read.
-/

namespace SRCommon

namespace Marshal

open MarshalUtils

variable {m : DataModel} {s : Marshal} {done rest : List UInt8}

def writeAll (s : Marshal) (items : List (Item m)) : Option Marshal := items.foldlM write s

variable (m)

def readAll (s : Marshal) : List MarshalType → Option (List (Item m) × Marshal)
  | [] => some ([], s)
  | T :: types => do
      let (value, s) ← read m s T
      let (items, s) ← readAll s types
      some (⟨T, value⟩ :: items, s)

variable {m}

def RoundTrips (items : List (Item m)) : Prop :=
  ∃ s s', writeAll Stream.empty items = some s ∧
    readAll m (s.setPosition 0) (items.map Sigma.fst) = some (items, s') ∧ s'.pos = s'.size

namespace Item

/-- The bytes `Write` appends. -/
def bytes : Item m → List UInt8
  | ⟨.scalar _, value⟩ => valueBytes value
  | ⟨.string, str⟩ => countedBytes byteBytes str
  | ⟨.unicodeString, str⟩ => countedBytes charBytes str
  | ⟨.vector _ _, vector⟩ => vectorBytes vector
  | ⟨.any, any⟩ => anyBytes any

/-- The bytes of the value and of its length field. -/
def size : Item m → ℕ
  | ⟨.string, str⟩ => 2 + (str : List UInt8).length * 1
  | ⟨.unicodeString, str⟩ => 2 + (str : List UInt32).length * 4
  | item => item.bytes.length

/-- The length field is not negative when it is read as an `int16_t`. -/
def Written : Item m → Prop
  | ⟨.string, str⟩ => (str : List UInt8).length % 65536 < 32768
  | ⟨.unicodeString, str⟩ => (str : List UInt32).length % 65536 < 32768
  | _ => True

/-- A plain `char` is not written and read as zero. -/
def Kept : Item m → Prop
  | ⟨.scalar t, value⟩ => t = .char → value = CppType.zero m t
  | ⟨.string, str⟩ => (str : List UInt8).length < 32768
  | ⟨.unicodeString, str⟩ => (str : List UInt32).length < 32768
  | ⟨.vector _ _, _⟩ => True
  | ⟨.any, any⟩ => Stored any

theorem Kept.written {item : Item m} (h : item.Kept) : item.Written := by
  rcases item with ⟨_ | _ | _ | _ | _, value⟩
  · trivial
  · exact (Nat.mod_le _ _).trans_lt h
  · exact (Nat.mod_le _ _).trans_lt h
  · trivial
  · trivial

theorem length_bytes_le (item : Item m) : item.bytes.length ≤ item.size := by
  rcases item with ⟨_ | _ | _ | _ | _, value⟩
  · exact le_rfl
  · exact length_countedBytes_le length_byteBytes value
  · exact length_countedBytes_le length_charBytes value
  · exact le_rfl
  · exact le_rfl

end Item

/-! ## One value -/

theorem write_eq (h : s.Holds done) {item : Item m} (hwritten : item.Written)
    (hroom : (done ++ item.bytes).length < 2 ^ 63) :
    ∃ s', s.write item = some s' ∧ s'.Holds (done ++ item.bytes) := by
  rcases item with ⟨_ | _ | _ | _ | _, value⟩
  · exact saveValue_eq h value hroom
  · exact saveCounted_eq h length_byteBytes (by decide) hwritten hroom
  · exact saveCounted_eq h length_charBytes (by decide) hwritten hroom
  · exact saveVector_eq h value hroom
  · exact saveAny_eq h value hroom

/-- A `Write` that copies out of its string has no result. -/
theorem written_of_write {item : Item m} (hsize : item.size < 2 ^ 63) {s' : Marshal}
    (hwrite : s.write item = some s') : item.Written := by
  by_contra hlong
  rcases item with ⟨_ | _ | _ | _ | _, value⟩
  · exact hlong trivial
  · have hdata := length_flatMap_of_length length_byteBytes value
    have hnone : s.write ⟨.string, value⟩ = none :=
      saveCounted_eq_none 1 (by decide) (by decide) (Nat.not_lt.mp hlong)
        (hdata.trans_lt ((Nat.le_add_left _ 2).trans_lt hsize))
    rw [hnone] at hwrite
    cases hwrite
  · have hdata := length_flatMap_of_length length_charBytes value
    have hnone : s.write ⟨.unicodeString, value⟩ = none :=
      saveCounted_eq_none 4 (by decide) (by decide) (Nat.not_lt.mp hlong)
        (hdata.trans_lt ((Nat.le_add_left _ 2).trans_lt hsize))
    rw [hnone] at hwrite
    cases hwrite
  · exact hlong trivial
  · exact hlong trivial

theorem read_eq {item : Item m} (hkept : item.Kept) (hsize : item.size < 2 ^ 63)
    (h : s.Ahead (item.bytes ++ rest)) :
    ∃ s', read m s item.1 = some (item.2, s') ∧ s'.Ahead rest := by
  rcases item with ⟨t | _ | _ | ⟨t, ht⟩ | _, value⟩
  · by_cases ht : t.isNumber
    · have hbytes : Item.bytes (m := m) ⟨.scalar t, value⟩ = CppType.bytes value := if_pos ht
      rw [hbytes] at h
      exact loadValue_eq ht value h
    · have hbytes : Item.bytes (m := m) ⟨.scalar t, value⟩ = [] := if_neg ht
      have hchar : t = .char := by
        revert ht
        cases t <;> decide
      rw [hbytes] at h
      refine ⟨s, ?_, h⟩
      change loadValue m t s = some (value, s)
      rw [hkept hchar, loadValue, if_neg ht]
      rfl
  · obtain ⟨s', hs', hahead⟩ := loadShortStr_eq (Item.Kept.written hkept) h
    rw [counted_of_lt (hkept.trans (by decide))] at hs'
    exact ⟨s', hs', hahead⟩
  · obtain ⟨s', hs', hahead⟩ := loadUnicodeString_eq (Item.Kept.written hkept) h
    rw [counted_of_lt (hkept.trans (by decide))] at hs'
    exact ⟨s', hs', hahead⟩
  · refine loadVector_eq value ?_ h
    exact (Nat.le_add_left _ 8).trans_lt ((length_vectorBytes value).ge.trans_lt hsize)
  · exact loadAny_eq hkept h

/-- What is read as it was written is one of the values that are kept. -/
theorem kept_of_read {item : Item m} (hwritten : item.Written) (h : s.Ahead (item.bytes ++ rest))
    {s' : Marshal} (hread : read m s item.1 = some (item.2, s')) : item.Kept := by
  rcases item with ⟨t | _ | _ | ⟨t, ht⟩ | _, value⟩
  · rintro rfl
    cases hread
    rfl
  · obtain ⟨s₁, hs₁, -⟩ := loadShortStr_eq hwritten h
    have hpair := Prod.mk.inj (Option.some.inj (hs₁.symm.trans hread))
    exact lt_of_counted_eq hwritten hpair.1
  · obtain ⟨s₁, hs₁, -⟩ := loadUnicodeString_eq hwritten h
    have hpair := Prod.mk.inj (Option.some.inj (hs₁.symm.trans hread))
    exact lt_of_counted_eq hwritten hpair.1
  · trivial
  · exact stored_of_loadAny h hread

/-! ## Sequences -/

def totalSize (items : List (Item m)) : ℕ := (items.map Item.size).sum

@[simp] theorem totalSize_cons (item : Item m) (items : List (Item m)) :
    totalSize (item :: items) = item.size + totalSize items := by simp [totalSize]

theorem length_flatMap_bytes_le (items : List (Item m)) :
    (items.flatMap Item.bytes).length ≤ totalSize items := by
  induction items with
  | nil => exact le_rfl
  | cons item items ih =>
      have hle := item.length_bytes_le
      rw [List.flatMap_cons, List.length_append, totalSize_cons]
      omega

theorem writeAll_eq {items : List (Item m)} (h : s.Holds done)
    (hwritten : ∀ item ∈ items, item.Written)
    (hroom : (done ++ items.flatMap Item.bytes).length < 2 ^ 63) :
    ∃ s', writeAll s items = some s' ∧ s'.Holds (done ++ items.flatMap Item.bytes) := by
  induction items generalizing s done with
  | nil => exact ⟨s, rfl, by simpa using h⟩
  | cons item items ih =>
      rw [List.flatMap_cons, ← List.append_assoc] at hroom ⊢
      obtain ⟨s₁, hs₁, hholds⟩ := write_eq h (hwritten item (List.mem_cons_self ..)) (by
        rw [List.length_append] at hroom
        omega)
      obtain ⟨s₂, hs₂, hholds₂⟩ :=
        ih hholds (fun i hi => hwritten i (List.mem_cons_of_mem item hi)) hroom
      refine ⟨s₂, ?_, hholds₂⟩
      rw [writeAll, List.foldlM_cons, hs₁]
      exact hs₂

theorem written_of_writeAll {items : List (Item m)} (hsize : totalSize items < 2 ^ 63)
    {s' : Marshal} (hwrite : writeAll s items = some s') : ∀ item ∈ items, item.Written := by
  induction items generalizing s with
  | nil => simp
  | cons item items ih =>
      rw [totalSize_cons] at hsize
      obtain ⟨s₁, hs₁, hrest⟩ := Option.bind_eq_some_iff.mp hwrite
      intro i hi
      rcases List.mem_cons.mp hi with rfl | hi
      · exact written_of_write (by omega) hs₁
      · exact ih (by omega) hrest i hi

theorem readAll_eq {items : List (Item m)} (hkept : ∀ item ∈ items, item.Kept)
    (hsize : totalSize items < 2 ^ 63) (h : s.Ahead (items.flatMap Item.bytes)) :
    ∃ s', readAll m s (items.map Sigma.fst) = some (items, s') ∧ s'.Ahead [] := by
  induction items generalizing s with
  | nil => exact ⟨s, rfl, h⟩
  | cons item items ih =>
      rw [List.flatMap_cons] at h
      rw [totalSize_cons] at hsize
      obtain ⟨s₁, hs₁, hahead⟩ := read_eq (hkept item (List.mem_cons_self ..)) (by omega) h
      obtain ⟨s₂, hs₂, hahead₂⟩ :=
        ih (fun i hi => hkept i (List.mem_cons_of_mem item hi)) (by omega) hahead
      exact ⟨s₂, by simp [readAll, hs₁, hs₂], hahead₂⟩

/-- The first value that is not kept is not read back, whatever follows it. -/
theorem kept_of_readAll {items : List (Item m)} (hwritten : ∀ item ∈ items, item.Written)
    (hsize : totalSize items < 2 ^ 63) (h : s.Ahead (items.flatMap Item.bytes)) {s' : Marshal}
    (hread : readAll m s (items.map Sigma.fst) = some (items, s')) :
    ∀ item ∈ items, item.Kept := by
  induction items generalizing s with
  | nil => simp
  | cons item items ih =>
      obtain ⟨T, written⟩ := item
      rw [List.flatMap_cons] at h
      rw [totalSize_cons] at hsize
      obtain ⟨⟨value, s₁⟩, hs₁, hrest⟩ := Option.bind_eq_some_iff.mp hread
      obtain ⟨⟨others, s₂⟩, hs₂, heq⟩ := Option.bind_eq_some_iff.mp hrest
      simp only [Option.some.injEq, Prod.mk.injEq, List.cons.injEq, Sigma.mk.injEq, heq_eq_eq,
        true_and] at heq
      obtain ⟨⟨hvalue, hothers⟩, hend⟩ := heq
      rw [hvalue] at hs₁
      rw [hothers, hend] at hs₂
      have hkept := kept_of_read (hwritten _ (List.mem_cons_self ..)) h hs₁
      obtain ⟨s₃, hs₃, hahead⟩ := read_eq hkept (by omega) h
      obtain rfl : s₁ = s₃ := by
        rw [hs₁] at hs₃
        exact (Prod.mk.inj (Option.some.inj hs₃)).2
      intro i hi
      rcases List.mem_cons.mp hi with rfl | hi
      · exact hkept
      · exact ih (fun i hi => hwritten i (List.mem_cons_of_mem _ hi)) (by omega) hahead hs₂ i hi

theorem length_nil_append_lt {items : List (Item m)} (hsize : totalSize items < 2 ^ 63) :
    ([] ++ items.flatMap Item.bytes).length < 2 ^ 63 :=
  (length_flatMap_bytes_le items).trans_lt hsize

theorem RoundTrips.kept {items : List (Item m)} (h : RoundTrips items)
    (hsize : totalSize items < 2 ^ 63) : ∀ item ∈ items, item.Kept := by
  obtain ⟨s, s', hwrite, hread, -⟩ := h
  have hwritten := written_of_writeAll hsize hwrite
  obtain ⟨s₁, hs₁, hholds⟩ :=
    writeAll_eq Stream.holds_empty hwritten (length_nil_append_lt hsize)
  obtain rfl : s = s₁ := Option.some.inj (hwrite.symm.trans hs₁)
  exact kept_of_readAll hwritten hsize hholds.rewind hread

theorem RoundTrips.length_lt {str : List UInt8} (h : RoundTrips (m := m) [⟨.string, str⟩])
    (hsize : 2 + str.length * 1 < 2 ^ 63) : str.length < 32768 :=
  h.kept hsize ⟨.string, str⟩ (List.mem_singleton_self _)

/-- A sequence is read back exactly if each of its values is one that is kept. -/
theorem roundTrips_iff_kept (items : List (Item m)) (hsize : totalSize items < 2 ^ 63) :
    RoundTrips items ↔ ∀ item ∈ items, item.Kept := by
  constructor
  · intro h
    exact h.kept hsize
  · intro hkept
    obtain ⟨s, hs, hholds⟩ := writeAll_eq Stream.holds_empty
      (fun item hitem => (hkept item hitem).written) (length_nil_append_lt hsize)
    obtain ⟨s', hs', hahead⟩ := readAll_eq hkept hsize hholds.rewind
    exact ⟨s, s', hs, hs', hahead.pos_eq_size⟩

theorem roundTrips_iff_kept_sample :
    RoundTrips (m := .lp64) [⟨.string, [97, 98]⟩, ⟨.any, .scalar .int ⟨7, by decide⟩⟩] := by
  refine (roundTrips_iff_kept _ (by decide)).mpr ?_
  intro item hitem
  rcases List.mem_cons.mp hitem with rfl | hitem
  · exact (by decide : 2 < 32768)
  · obtain rfl := List.mem_singleton.mp hitem
    exact (by decide : CppType.int ∈ storedTypes .lp64)

/-- An `std::any` with a string of one byte, and a string too long for an `int16_t`. -/
theorem not_roundTrips :
    ¬RoundTrips (m := .lp64) [⟨.any, .string [97]⟩] ∧
      ¬RoundTrips (m := .lp64) [⟨.string, List.replicate 32768 97⟩] := by
  constructor
  · intro h
    exact h.kept (by decide) _ (List.mem_singleton_self _)
  · intro h
    have hlength := h.length_lt (by rw [List.length_replicate]; decide)
    rw [List.length_replicate] at hlength
    exact absurd hlength (by decide)

end Marshal

end SRCommon
