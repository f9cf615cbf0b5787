import SRCommon.Types.StreamCalls

/-!
# The bounds of `Write`

`Write` compares the new size with the capacity and stores at the position, so
it relies on the position being inside the size. Every operation keeps that
order except `SetData`, which replaces the size and leaves the position alone.
-/

namespace SRCommon

/-- `Write` stores at no index at or beyond the capacity. -/
def StreamRequest.StoresBelow (s s' : Stream) : StreamRequest → Prop
  | .write pSrc => ∀ k < pSrc.bytes.length, s.pos.toNat + k < s'.capacity.toNat
  | _ => True

def StreamCall.StoresBelow {ν : Type} (σ σ' : Streams ν) : StreamCall ν → Prop
  | .request i r => r.StoresBelow (σ i) (σ' i)
  | _ => True

namespace Stream

variable {s : Stream}

theorem ordered_empty : empty.Ordered := ⟨by decide, by decide⟩

theorem ordered_of_eq (hpos : s.pos = 0) (hcapacity : s.capacity = s.size) : s.Ordered :=
  .of_toNat (by simp [hpos]) (by rw [hcapacity])

theorem Ordered.reserve (h : s.Ordered) (capacity : UInt64) : (s.reserve capacity).Ordered where
  pos_le := by simpa using h.pos_le
  size_le := by simpa using UInt64.le_trans h.size_le (capacity_le_reserve s capacity)

theorem Ordered.copy (h : s.Ordered) : s.copy.Ordered :=
  ⟨UInt64.zero_le, h.size_le⟩

theorem Ordered.copyAssign {other : Stream} (h : other.Ordered) (s : Stream) (same : Bool) :
    (s.copyAssign other same).Ordered :=
  ⟨UInt64.zero_le, h.size_le⟩

theorem Ordered.setPosition (h : s.Ordered) {position : UInt64} (hposition : position ≤ s.size) :
    (s.setPosition position).Ordered :=
  ⟨hposition, h.size_le⟩

theorem Ordered.skip (h : s.Ordered) {count : UInt64}
    (hcount : s.pos.toNat + count.toNat ≤ s.size.toNat) : (s.skip count).Ordered := by
  refine .of_toNat ?_ h.size_le_toNat
  rw [toNat_pos_skip hcount]
  exact hcount

theorem Ordered.tryRead (h : s.Ordered) (pDst : Buffer)
    (hwrap : s.pos.toNat + pDst.bytes.length < 2 ^ 64) :
    ∃ out s', s.tryRead pDst.cells pDst.count = some (out, s') ∧ s'.Ordered := by
  rw [h.tryRead_eq_some (by simp) (by simpa using hwrap)]
  split
  · rename_i hin
    exact ⟨_, _, rfl, h.skip hin⟩
  · exact ⟨_, _, rfl, h⟩

/-- One request in range keeps the order and stores below the capacity. -/
theorem Ordered.answer (h : s.Ordered) {r : StreamRequest} (hinside : r.Inside s)
    (hrange : r.InRange s) :
    ∃ s' out, s.answer r = some (s', out) ∧ s'.Ordered ∧ r.StoresBelow s s' := by
  cases r with
  | create pData =>
      obtain ⟨s', hs', hsize, hpos, hcapacity, _⟩ :=
        create_eq_some pData.count_le_length
      exact ⟨s', [], by simp [Stream.answer, hs'],
        ordered_of_eq hpos (hcapacity.trans hsize.symm), trivial⟩
  | ofString str =>
      obtain ⟨s', hs', hsize, hpos, hcapacity, _⟩ := ofString_eq_some str.bounded
      exact ⟨s', [], by simp [Stream.answer, hs'], ordered_of_eq hpos hcapacity, trivial⟩
  | write pSrc =>
      have hroom : s.HasRoom pSrc.count.toNat := by rwa [Buffer.toNat_count]
      obtain ⟨s', hs', hsize, hpos, hcapacity, _⟩ :=
        h.write_eq_some hroom pSrc.count_le_length
      have hle := hroom.size_grow_le
      have hinv := h.pos_le_toNat
      rw [← hcapacity, Buffer.toNat_count] at hle
      rw [Buffer.toNat_count] at hsize hpos
      refine ⟨s', [], by simp [Stream.answer, hs'], ?_, ?_⟩
      · exact .of_toNat (by omega) (by omega)
      · intro k hk
        omega
  | read pDst =>
      obtain ⟨out, s', hs', hordered⟩ := h.tryRead pDst hrange
      exact ⟨s', out, by simp [Stream.answer, h.read_eq_tryRead, hs'], hordered, trivial⟩
  | tryRead pDst =>
      obtain ⟨out, s', hs', hordered⟩ := h.tryRead pDst hrange
      exact ⟨s', out, by simp [Stream.answer, hs'], hordered, trivial⟩
  | setData pData =>
      obtain ⟨s', hs', hsize, hpos, hcapacity, _⟩ :=
        s.setData_eq_some pData.count_le_length
      refine ⟨s', [], by simp [Stream.answer, hs'], ⟨?_, ?_⟩, trivial⟩
      · rw [hpos, hsize]
        exact hrange
      · rw [hsize, hcapacity]
        exact UInt64.le_refl _
  | reserve capacity => exact ⟨_, _, rfl, h.reserve capacity, trivial⟩
  | setPosition position => exact ⟨_, _, rfl, h.setPosition hinside, trivial⟩
  | skip count => exact ⟨_, _, rfl, h.skip hinside, trivial⟩

end Stream

namespace Streams

variable {ν : Type} [DecidableEq ν] {σ : Streams ν}

def Ordered (σ : Streams ν) : Prop := ∀ i, (σ i).Ordered

omit [DecidableEq ν] in
theorem ordered_start : Ordered (start : Streams ν) := fun _ => Stream.ordered_empty

theorem Ordered.update (h : σ.Ordered) (i : ν) {s : Stream} (hs : s.Ordered) :
    Ordered (Function.update σ i s) := by
  intro j
  rcases eq_or_ne j i with rfl | hne
  · rwa [Function.update_self]
  · rw [Function.update_of_ne hne]
    exact h j

/-- One call keeps the order of all streams. -/
theorem Ordered.step (h : σ.Ordered) {call : StreamCall ν}
    (hcall : call.Inside σ ∧ call.InRange σ) :
    ∃ r, Streams.step σ call = some r ∧ (r.1.Ordered ∧ call.StoresBelow σ r.1) ∧ r.1.Ordered := by
  obtain ⟨hinside, hrange⟩ := hcall
  cases call with
  | request i request =>
      obtain ⟨s', out, hs', hordered, hbelow⟩ := (h i).answer hinside hrange
      have hupdate := h.update i hordered
      refine ⟨(Function.update σ i s', out), by simp [Streams.step, hs'], ⟨hupdate, ?_⟩, hupdate⟩
      simpa only [StreamCall.StoresBelow, Function.update_self] using hbelow
  | copy i j =>
      have hupdate := h.update i (h j).copy
      exact ⟨_, rfl, ⟨hupdate, trivial⟩, hupdate⟩
  | copyAssign i j =>
      have hupdate := h.update i ((h j).copyAssign (σ i) (i = j))
      exact ⟨_, rfl, ⟨hupdate, trivial⟩, hupdate⟩
  | move i j =>
      have hupdate := (h.update j Stream.ordered_empty).update i (h j)
      exact ⟨_, rfl, ⟨hupdate, trivial⟩, hupdate⟩

/-- Along calls in range every stream stays ordered and every `Write` below its capacity. -/
theorem ordered_of_inRange (calls : List (StreamCall ν))
    (h : Steps.Along step (fun σ call => call.Inside σ ∧ call.InRange σ) start calls) :
    Steps.Always step (fun σ call σ' => σ'.Ordered ∧ call.StoresBelow σ σ') start calls :=
  h.always (fun _ _ hordered hcall => hordered.step hcall) ordered_start

theorem ordered_of_inRange_sample :
    Steps.Always step (fun σ call σ' => σ'.Ordered ∧ call.StoresBelow σ σ') start
      [.request () (.write ⟨[97, 98], by decide⟩), .request () (.setData ⟨[99, 100], by decide⟩)] := by
  apply ordered_of_inRange
  refine ⟨⟨trivial, Or.inr (by decide)⟩, fun r hr => ⟨⟨trivial, ?_⟩, fun _ _ => trivial⟩⟩
  obtain rfl := Option.get_of_eq_some (by rfl) hr
  simp only [StreamCall.InRange, StreamRequest.InRange]
  decide

/-- Two bytes are written and one byte is set: the position is left behind the size. -/
theorem not_ordered_of_setData :
    ¬∀ calls : List (StreamCall Unit),
      Steps.Along step (fun σ call => call.Inside σ) start calls →
        Steps.Always step (fun σ call σ' => σ'.Ordered ∧ call.StoresBelow σ σ') start calls := by
  intro hall
  obtain ⟨r, hr, -, r', hr', ⟨hordered, -⟩, -⟩ :=
    hall [.request () (.write ⟨[97, 98], by decide⟩), .request () (.setData ⟨[99], by decide⟩)]
      ⟨trivial, fun _ _ => ⟨trivial, fun _ _ => trivial⟩⟩
  obtain rfl := Option.get_of_eq_some (by rfl) hr
  obtain rfl := Option.get_of_eq_some (by rfl) hr'
  exact absurd (hordered ()).pos_le (by decide)

end Streams

end SRCommon
