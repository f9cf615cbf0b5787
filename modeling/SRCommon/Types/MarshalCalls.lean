import Mathlib.Data.Vector.Basic
import SRCommon.Types.MarshalRoundTrip

/-!
# Calls on a marshal

`WriteBlock` and `ReadBlock`, and functions that only write or only read. What
a function writes is the list of its calls, and a function that reads is
compared with the calls that have written what is in front of it.
-/

namespace SRCommon

/-- The bytes are put at the front of a destination that may be larger. -/
theorem Stream.Ahead.read_into {s : Stream} {bytes rest : List UInt8}
    (h : s.Ahead (bytes ++ rest)) {pDst : List Cell} {count : UInt64}
    (hcount : count.toNat = bytes.length) (hdst : bytes.length ≤ pDst.length) :
    ∃ s', s.read pDst count = some (bytes.map some ++ pDst.drop bytes.length, s') ∧
      s'.Ahead rest := by
  obtain ⟨f, hshows, hahead⟩ := h
  have hin : f.cursor + count.toNat ≤ f.contents.length := by
    have hlength := congrArg List.length hahead
    have hinside := f.inside
    rw [List.length_drop, List.length_append] at hlength
    omega
  obtain ⟨hread, hskip⟩ := hshows.tryRead_of_le (hcount.trans_le hdst) hin
  refine ⟨s.skip count, ?_, _, hskip, ?_⟩
  · rw [hshows.ordered.read_eq_tryRead, hread, hahead, hcount, List.take_left, splice,
      List.take_zero, List.nil_append, Nat.zero_add, List.length_map]
  · rw [← List.drop_drop, hahead, hcount, List.drop_left]

/-- A destination that is too small, or none at all, is written over. -/
theorem Stream.Ahead.read_eq_none {s : Stream} {bytes rest : List UInt8}
    (h : s.Ahead (bytes ++ rest)) {pDst : List Cell} {count : UInt64}
    (hcount : count.toNat = bytes.length) (hdst : pDst.length < bytes.length) :
    s.read pDst count = none := by
  obtain ⟨f, hshows, hahead⟩ := h
  have hlength := congrArg List.length hahead
  have hinside := f.inside
  rw [List.length_drop, List.length_append] at hlength
  have hsum : s.pos.toNat + count.toNat ≤ s.size.toNat := by
    rw [hshows.pos_eq, hshows.size_eq]
    omega
  have hlt := s.size.toNat_lt
  rw [hshows.ordered.read_eq_tryRead, Stream.tryRead,
    if_neg (mt (Stream.lt_pos_add_iff (by omega)).mp (by omega)), Stream.fetch,
    if_neg fun hroom => absurd (hcount ▸ hroom.2) (by omega)]

namespace Marshal

open LittleEndian MarshalUtils

variable {m : DataModel}

def uint64 (value : UInt64) : Item m :=
  ⟨.scalar .unsignedLongLong, ⟨value.toNat, value.toNat_lt⟩⟩

def flag (value : Bool) : Item m := ⟨.scalar .bool, ⟨value.toNat, value.toNat_lt⟩⟩

/-! ## Writing -/

variable (m) in
def writeBlock (s : Marshal) (pData : List UInt8) (size : UInt64) : Option Marshal := do
  let s ← s.write (uint64 (m := m) size)
  if size = 0 then some s else Stream.write s (pData.map some) size

variable (m) in
inductive Call where
  | write (item : Item m)
  | writeBlock (pData : List UInt8) (size : UInt64)
  /-- An `at` that throws. -/
  | outOfRange

namespace Call

def perform (s : Marshal) : Call m → Option Marshal
  | write item => s.write item
  | writeBlock pData size => s.writeBlock m pData size
  | outOfRange => none

/-- What the call appends. -/
def bytes : Call m → List UInt8
  | write item => item.bytes
  | writeBlock pData size => (uint64 (m := m) size).bytes ++ pData.take size.toNat
  | outOfRange => []

/-- The value can be read again, and the block is not left. -/
def Valid : Call m → Prop
  | write item => item.Kept
  | writeBlock pData size => size.toNat ≤ pData.length
  | outOfRange => False

end Call

def perform (s : Marshal) (calls : List (Call m)) : Option Marshal := calls.foldlM Call.perform s

def bytes (calls : List (Call m)) : List UInt8 := calls.flatMap Call.bytes

theorem bytes_append (calls calls' : List (Call m)) :
    bytes (calls ++ calls') = bytes calls ++ bytes calls' := List.flatMap_append

/-! ## Reading -/

/-- A function that reads, `none` where it would write outside of what is allocated. -/
abbrev Load := StateT Marshal Option

def readValue (T : MarshalType) : Load (T.Value m) := fun s => read m s T

variable (m)

def Load.uint64 : Load UInt64 := do
  let value ← readValue (m := m) (.scalar .unsignedLongLong)
  pure (UInt64.ofNat value.val)

def Load.flag : Load Bool := do
  let value ← readValue (m := m) (.scalar .bool)
  pure (value.val != 0)

def Load.string : Load (List UInt8) := readValue (m := m) .string

/-- A null pointer has no bytes. -/
def readBlock (pDestination : List Cell) : Load (List Cell) := do
  let size ← Load.uint64 m
  if size = 0 then pure pDestination else fun s => Stream.read s pDestination size

/-- `g` once for each element of an array. -/
def Load.each {α : Type} (g : Load α) : (count : ℕ) → Load (List.Vector α count)
  | 0 => pure .nil
  | count + 1 => do
      let x ← g
      let xs ← Load.each g count
      pure (x ::ᵥ xs)

/-- A block of `size` bytes, all of them known. -/
def Load.block (size : ℕ) (pDestination : List Cell) : Load (List.Vector UInt8 size) := do
  let block ← readBlock m pDestination
  match known block with
  | some bytes => if h : bytes.length = size then pure ⟨bytes, h⟩ else failure
  | none => failure

variable {m}

/-! ## What is read of what has been written -/

/-- The calls go through. With their bytes in front of it, the function returns `x` and is behind
them. -/
structure Loads {α : Type} (load : Load α) (calls : List (Call m)) (x : α) : Prop where
  valid : ∀ call ∈ calls, call.Valid
  answer : ∀ {s : Marshal} {rest : List UInt8}, Stream.Ahead s (bytes calls ++ rest) →
    ∃ s', load s = some (x, s') ∧ s'.Ahead rest

/-- The calls go through. With their bytes in front of it, the function writes where nothing is
allocated. -/
structure Fails {α : Type} (load : Load α) (calls : List (Call m)) : Prop where
  valid : ∀ call ∈ calls, call.Valid
  answer : ∀ {s : Marshal} {rest : List UInt8}, Stream.Ahead s (bytes calls ++ rest) →
    load s = none

section

variable {α β : Type} {load : Load α} {next : α → Load β} {calls calls' : List (Call m)} {x : α}
  {y : β}

theorem Loads.pure (x : α) : Loads (Pure.pure x) ([] : List (Call m)) x where
  valid := List.forall_mem_nil _
  answer {s _} h := ⟨s, rfl, h⟩

theorem Loads.bind (h : Loads load calls x) (hnext : Loads (next x) calls' y) :
    Loads (load >>= next) (calls ++ calls') y where
  valid := List.forall_mem_append.mpr ⟨h.valid, hnext.valid⟩
  answer {s rest} hahead := by
    rw [bytes_append, List.append_assoc] at hahead
    obtain ⟨s₁, hs₁, hahead⟩ := h.answer hahead
    obtain ⟨s₂, hs₂, hahead⟩ := hnext.answer hahead
    exact ⟨s₂, (congrArg (Option.bind · _) hs₁).trans hs₂, hahead⟩

theorem Loads.map (h : Loads load calls x) (f : α → β) :
    Loads (load >>= fun x => Pure.pure (f x)) calls (f x) where
  valid := h.valid
  answer {s rest} hahead := by
    obtain ⟨s', hs', hahead⟩ := h.answer hahead
    exact ⟨s', congrArg (Option.bind · _) hs', hahead⟩

theorem Loads.cons {call : Call m} (h : Loads load [call] x) (hnext : Loads (next x) calls y) :
    Loads (load >>= next) (call :: calls) y := h.bind hnext

theorem Loads.bind_fails (h : Loads load calls x) (hnext : Fails (next x) calls') :
    Fails (load >>= next) (calls ++ calls') where
  valid := List.forall_mem_append.mpr ⟨h.valid, hnext.valid⟩
  answer {s rest} hahead := by
    rw [bytes_append, List.append_assoc] at hahead
    obtain ⟨s', hs', hahead⟩ := h.answer hahead
    exact (congrArg (Option.bind · _) hs').trans (hnext.answer hahead)

theorem Fails.bind (h : Fails load calls) (next : α → Load β) : Fails (load >>= next) calls where
  valid := h.valid
  answer hahead := congrArg (Option.bind · _) (h.answer hahead)

theorem Fails.append (h : Fails load calls) (hvalid : ∀ call ∈ calls', call.Valid) :
    Fails load (calls ++ calls') where
  valid := List.forall_mem_append.mpr ⟨h.valid, hvalid⟩
  answer {s rest} hahead := by
    rw [bytes_append, List.append_assoc] at hahead
    exact h.answer hahead

/-- The elements of an array one after the other. -/
theorem Loads.each {f : β → List (Call m)} {g : β → α} {count : ℕ} (xs : List.Vector β count)
    (h : ∀ x ∈ xs.toList, Loads load (f x) (g x)) :
    Loads (Load.each load count) (xs.toList.flatMap f) (xs.map g) := by
  induction xs using List.Vector.inductionOn with
  | nil => exact .pure _
  | @cons count x xs ih =>
      rw [List.Vector.toList_cons] at h
      obtain ⟨hx, hxs⟩ := List.forall_mem_cons.mp h
      exact hx.bind ((ih hxs).map _)

/-- The first element that is not read ends it. -/
theorem Fails.each {f : β → List (Call m)} {g : β → α} {Good : β → Prop} {count : ℕ}
    (xs : List.Vector β count) (hgood : ∀ x ∈ xs.toList, Good x → Loads load (f x) (g x))
    (hbad : ∀ x ∈ xs.toList, ¬ Good x → Fails load (f x)) (h : ∃ x ∈ xs.toList, ¬ Good x) :
    Fails (Load.each load count) (xs.toList.flatMap f) := by
  induction xs using List.Vector.inductionOn with
  | nil => simp at h
  | @cons count x xs ih =>
      rw [List.Vector.toList_cons] at h hgood hbad
      obtain ⟨hgood, hgoods⟩ := List.forall_mem_cons.mp hgood
      obtain ⟨hbad, hbads⟩ := List.forall_mem_cons.mp hbad
      by_cases hx : Good x
      · obtain ⟨z, hz, hnot⟩ := h
        rcases List.mem_cons.mp hz with rfl | hz
        · exact absurd hx hnot
        · exact (hgood hx).bind_fails ((ih hgoods hbads ⟨z, hz, hnot⟩).bind _)
      · refine ((hbad hx).append fun call hcall => ?_).bind _
        obtain ⟨y, hy, hcall⟩ := List.mem_flatMap.mp hcall
        by_cases hgood : Good y
        · exact (hgoods y hy hgood).valid call hcall
        · exact (hbads y hy hgood).valid call hcall

end

theorem valid_singleton {call : Call m} (h : call.Valid) : ∀ c ∈ [call], c.Valid :=
  List.forall_mem_singleton.mpr h

theorem loads_scalar {t : CppType} (ht : t.isNumber) (value : t.Value m) :
    Loads (readValue (.scalar t)) ([.write ⟨.scalar t, value⟩] : List (Call m)) value where
  valid := valid_singleton fun hchar => by
    subst hchar
    cases ht
  answer {s rest} hahead := by
    have hbytes : bytes ([.write ⟨.scalar t, value⟩] : List (Call m)) = CppType.bytes value := by
      rw [bytes, List.flatMap_singleton]
      exact if_pos ht
    rw [hbytes] at hahead
    exact loadValue_eq ht value hahead

theorem loads_uint64 (value : UInt64) :
    Loads (Load.uint64 m) ([.write (uint64 value)] : List (Call m)) value := by
  have h := (loads_scalar (t := .unsignedLongLong) rfl
    (⟨value.toNat, value.toNat_lt⟩ : CppType.Value m .unsignedLongLong)).map
      fun value => UInt64.ofNat value.val
  rwa [UInt64.ofNat_toNat] at h

theorem loads_flag (value : Bool) :
    Loads (Load.flag m) ([.write (flag value)] : List (Call m)) value := by
  have h := (loads_scalar (t := .bool) rfl
    (⟨value.toNat, value.toNat_lt⟩ : CppType.Value m .bool)).map fun value => value.val != 0
  cases value <;> exact h

theorem loads_string {str : List UInt8} (h : str.length < 32768) :
    Loads (Load.string m) ([.write ⟨.string, str⟩] : List (Call m)) str where
  valid := valid_singleton h
  answer {s rest} hahead := by
    have hkept : Item.Kept (m := m) ⟨.string, str⟩ := h
    have hsize : Item.size (m := m) ⟨.string, str⟩ < 2 ^ 63 := by
      change 2 + str.length * 1 < 2 ^ 63
      omega
    rw [bytes, List.flatMap_singleton] at hahead
    exact read_eq hkept hsize hahead

/-! ## Blocks -/

section

variable {pData : List UInt8} {pDestination : List Cell} {size : UInt64}

theorem bytes_writeBlock (pData : List UInt8) (size : UInt64) :
    bytes ([.writeBlock pData size] : List (Call m)) =
      bytes ([.write (uint64 size)] : List (Call m)) ++ pData.take size.toNat := by
  simp [bytes, Call.bytes]

/-- Behind its size. -/
theorem readBlock_eq {s s' : Marshal} (h : Load.uint64 m s = some (size, s')) :
    readBlock m pDestination s =
      if size = 0 then some (pDestination, s') else Stream.read s' pDestination size := by
  refine (congrArg (Option.bind · _) h).trans ?_
  by_cases hzero : size = 0
  · rw [if_pos hzero]
    exact congrFun (if_pos hzero) s'
  · rw [if_neg hzero]
    exact congrFun (if_neg hzero) s'

theorem loads_readBlock (hdata : size.toNat ≤ pData.length)
    (hroom : size.toNat ≤ pDestination.length) :
    Loads (readBlock m pDestination) ([.writeBlock pData size] : List (Call m))
      ((pData.take size.toNat).map some ++ pDestination.drop size.toNat) where
  valid := valid_singleton hdata
  answer {s rest} hahead := by
    rw [bytes_writeBlock, List.append_assoc] at hahead
    obtain ⟨s₁, hs₁, hahead⟩ := (loads_uint64 (m := m) size).answer hahead
    have htaken : (pData.take size.toNat).length = size.toNat := List.length_take_of_le hdata
    rw [readBlock_eq hs₁]
    by_cases hzero : size = 0
    · subst hzero
      exact ⟨s₁, rfl, hahead⟩
    · obtain ⟨s₂, hs₂, hahead₂⟩ := hahead.read_into htaken.symm (htaken.trans_le hroom)
      rw [htaken] at hs₂
      exact ⟨s₂, by rw [if_neg hzero, hs₂], hahead₂⟩

/-- A null pointer is written through if there is anything in the block. -/
theorem fails_readBlock (hdata : size.toNat ≤ pData.length)
    (hroom : pDestination.length < size.toNat) :
    Fails (readBlock m pDestination) ([.writeBlock pData size] : List (Call m)) where
  valid := valid_singleton hdata
  answer {s rest} hahead := by
    rw [bytes_writeBlock, List.append_assoc] at hahead
    obtain ⟨s₁, hs₁, hahead⟩ := (loads_uint64 (m := m) size).answer hahead
    have htaken : (pData.take size.toNat).length = size.toNat := List.length_take_of_le hdata
    have hzero : size ≠ 0 := by
      rintro rfl
      exact absurd hroom (Nat.not_lt_zero _)
    rw [readBlock_eq hs₁, if_neg hzero]
    exact hahead.read_eq_none htaken.symm (hroom.trans_eq htaken.symm)

/-- What is in the destination in the end. -/
theorem loads_block {width : ℕ} (block : List.Vector UInt8 width)
    (hdata : size.toNat ≤ pData.length) (hroom : size.toNat ≤ pDestination.length)
    (hblock : (pData.take size.toNat).map some ++ pDestination.drop size.toNat =
      block.toList.map some) :
    Loads (Load.block m width pDestination) ([.writeBlock pData size] : List (Call m)) block := by
  have hread := loads_readBlock (m := m) hdata hroom
  rw [hblock] at hread
  refine hread.cons ?_
  rw [known_map_some]
  change Loads (dite _ _ _) _ _
  rw [dif_pos block.toList_length]
  exact .pure block

/-- A destination of the size of the block is filled. -/
theorem loads_block_toList {width : ℕ} (data : List.Vector UInt8 width)
    (hsize : size.toNat = width) (hroom : pDestination.length = width) :
    Loads (Load.block m width pDestination)
      ([.writeBlock data.toList size] : List (Call m)) data := by
  have hlength : data.toList.length = width := data.toList_length
  refine loads_block data (hsize.trans hlength.symm).le (hsize.trans hroom.symm).le ?_
  rw [List.take_of_length_le (by omega), List.drop_eq_nil_of_le (by omega), List.append_nil]

end

/-! ## The calls on a stream -/

theorem Call.perform_eq {s : Marshal} {done : List UInt8} (h : Stream.Holds s done)
    {call : Call m} (hvalid : call.Valid) (hroom : (done ++ call.bytes).length < 2 ^ 63) :
    ∃ s', call.perform s = some s' ∧ Stream.Holds s' (done ++ call.bytes) := by
  cases call with
  | write item => exact write_eq h hvalid.written hroom
  | writeBlock pData size =>
      have hwritten : Item.Written (uint64 (m := m) size) := trivial
      have hdata : size.toNat ≤ pData.length := hvalid
      have htaken : (pData.take size.toNat).length = size.toNat := List.length_take_of_le hdata
      rw [bytes, ← List.append_assoc] at hroom ⊢
      rw [List.length_append] at hroom
      obtain ⟨s₁, hs₁, hholds⟩ := write_eq h hwritten (Nat.lt_of_add_right_lt hroom)
      obtain ⟨s₂, hs₂, hholds₂⟩ := hholds.write (pData.take size.toNat) size htaken.symm hroom
      rw [List.map_take, Stream.write_take s₁ (by rwa [List.length_map])] at hs₂
      rw [perform, Marshal.writeBlock, hs₁]
      change ∃ s', (if size = 0 then _ else _) = some s' ∧ _
      by_cases hzero : size = 0
      · subst hzero
        refine ⟨s₁, if_pos rfl, ?_⟩
        rwa [UInt64.toNat_zero, List.take_zero, List.append_nil]
      · exact ⟨s₂, (if_neg hzero).trans hs₂, hholds₂⟩
  | outOfRange => exact absurd hvalid id

theorem perform_eq {s : Marshal} {done : List UInt8} {calls : List (Call m)}
    (h : Stream.Holds s done) (hvalid : ∀ call ∈ calls, call.Valid)
    (hroom : (done ++ bytes calls).length < 2 ^ 63) :
    ∃ s', perform s calls = some s' ∧ Stream.Holds s' (done ++ bytes calls) := by
  induction calls generalizing s done with
  | nil => exact ⟨s, rfl, by simpa [bytes] using h⟩
  | cons call calls ih =>
      obtain ⟨hcall, hcalls⟩ := List.forall_mem_cons.mp hvalid
      rw [bytes, List.flatMap_cons, ← List.append_assoc] at hroom ⊢
      obtain ⟨s₁, hs₁, hholds⟩ := Call.perform_eq h hcall (by
        rw [List.length_append] at hroom
        omega)
      obtain ⟨s₂, hs₂, hholds⟩ := ih hholds hcalls hroom
      refine ⟨s₂, ?_, hholds⟩
      rw [perform, List.foldlM_cons, hs₁]
      exact hs₂

theorem outOfRange_notMem_of_perform {s s' : Marshal} {calls : List (Call m)}
    (h : perform s calls = some s') : .outOfRange ∉ calls := by
  induction calls generalizing s with
  | nil => exact List.not_mem_nil
  | cons call calls ih =>
      obtain ⟨s₁, hs₁, hrest⟩ := Option.bind_eq_some_iff.mp h
      rintro (_ | ⟨_, hmem⟩)
      · cases hs₁
      · exact ih hrest hmem

end Marshal

end SRCommon
