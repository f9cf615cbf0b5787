import SRCommon.Types.StreamBounds
import SRCommon.Types.StreamCalls

/-!
# Streams as byte files

A stream shows the file whose bytes fill its size. `Write` adds its count to
the size wherever the position is, so it acts as a write to the file only at
the end, and `operator=` of a stream to itself loses the bytes.
-/

namespace SRCommon

/-!
## Byte files

What a stream is for: bytes with a cursor inside them. A request that has no
meaning for such a file, a cursor past its end, is not answered.
-/

structure ByteFile where
  contents : List UInt8
  cursor : ℕ
  inside : cursor ≤ contents.length

namespace ByteFile

def empty : ByteFile := ⟨[], 0, le_rfl⟩

def ofBytes (bytes : List UInt8) : ByteFile := ⟨bytes, 0, Nat.zero_le _⟩

def write (f : ByteFile) (bytes : List UInt8) : ByteFile where
  contents := splice f.contents f.cursor bytes
  cursor := f.cursor + bytes.length
  inside := by
    rw [length_splice bytes f.inside]
    exact le_max_right _ _

def seek (f : ByteFile) (position : ℕ) : Option ByteFile :=
  if h : position ≤ f.contents.length then some ⟨f.contents, position, h⟩ else none

/-- The buffer is filled, or left alone where it asks for more than there is. -/
def read (f : ByteFile) (dst : List UInt8) : ByteFile × List UInt8 :=
  if h : f.cursor + dst.length ≤ f.contents.length then
    (⟨f.contents, f.cursor + dst.length, h⟩, (f.contents.drop f.cursor).take dst.length)
  else (f, dst)

def replace (f : ByteFile) (bytes : List UInt8) : Option ByteFile :=
  if h : f.cursor ≤ bytes.length then some ⟨bytes, f.cursor, h⟩ else none

def answer (f : ByteFile) : StreamRequest → Option (ByteFile × List Cell)
  | .create pData => some (ofBytes pData.bytes, [])
  | .ofString str => some (ofBytes str.bytes, [])
  | .write pSrc => some (f.write pSrc.bytes, [])
  | .read pDst | .tryRead pDst => some ((f.read pDst.bytes).1, (f.read pDst.bytes).2.map some)
  | .setData pData => (f.replace pData.bytes).map (·, [])
  | .reserve _ => some (f, [])
  | .setPosition position => (f.seek position.toNat).map (·, [])
  | .skip count => (f.seek (f.cursor + count.toNat)).map (·, [])

/-- A write makes the size `max(size, p + n)`. -/
theorem length_write (f : ByteFile) (bytes : List UInt8) :
    (f.write bytes).contents.length = max f.contents.length (f.cursor + bytes.length) :=
  length_splice bytes f.inside

/-- A write replaces the bytes from the cursor on and leaves every other one. -/
theorem getElem?_write (f : ByteFile) (bytes : List UInt8) (k : ℕ) :
    (f.write bytes).contents[k]? =
      if f.cursor ≤ k ∧ k < f.cursor + bytes.length then bytes[k - f.cursor]?
      else f.contents[k]? :=
  getElem?_splice bytes f.inside k

theorem write_nil (f : ByteFile) : f.write [] = f := by simp [write]

/-- The file with its cursor at the end. -/
def full (bytes : List UInt8) : ByteFile := ⟨bytes, bytes.length, le_rfl⟩

theorem write_full (bytes more : List UInt8) : (full bytes).write more = full (bytes ++ more) := by
  simp [full, write]

theorem contents_write_of_eq {f : ByteFile} (h : f.cursor = f.contents.length)
    (bytes : List UInt8) : (f.write bytes).contents = f.contents ++ bytes := by
  change splice f.contents f.cursor bytes = _
  rw [h, splice_length]

theorem seek_eq_some {f : ByteFile} {position : ℕ} (h : position ≤ f.contents.length) :
    f.seek position = some ⟨f.contents, position, h⟩ := dif_pos h

theorem replace_eq_some {f : ByteFile} {bytes : List UInt8} (h : f.cursor ≤ bytes.length) :
    f.replace bytes = some ⟨bytes, f.cursor, h⟩ := dif_pos h

end ByteFile

/-! ## Files under names -/

abbrev Files (ν : Type) := ν → ByteFile

namespace Files

variable {ν : Type} [DecidableEq ν]

def start : Files ν := fun _ => ByteFile.empty

def step (φ : Files ν) : StreamCall ν → Option (Files ν × List Cell)
  | .request i r => ((φ i).answer r).map fun a => (Function.update φ i a.1, a.2)
  | .copy i j | .copyAssign i j =>
      some (Function.update φ i (.ofBytes (φ j).contents), [])
  | .move i j => some (Function.update (Function.update φ j ByteFile.empty) i (φ j), [])

end Files

structure Stream.Shows (s : Stream) (f : ByteFile) : Prop where
  ordered : s.Ordered
  size_eq : s.size.toNat = f.contents.length
  pos_eq : s.pos.toNat = f.cursor
  contents_eq : s.contents = f.contents.map some

def StreamRequest.AtEnd (s : Stream) : StreamRequest → Prop
  | .write pSrc => s.pos = s.size ∨ pSrc.bytes = []
  | _ => True

/-- Nothing is overwritten, and only an empty stream is assigned to itself. -/
def StreamCall.AtEnd {ν : Type} (σ : Streams ν) : StreamCall ν → Prop
  | .request i r => r.AtEnd (σ i)
  | .copyAssign i j => i = j → (σ i).size = 0
  | _ => True

namespace Stream

variable {s : Stream} {f : ByteFile}

theorem shows_empty : empty.Shows ByteFile.empty := ⟨ordered_empty, rfl, rfl, rfl⟩

theorem Ordered.of_answer (h : s.Ordered) {r : StreamRequest} (hinside : r.Inside s)
    (hrange : r.InRange s) {s' : Stream} {out : List Cell} (hs' : s.answer r = some (s', out)) :
    s'.Ordered := by
  obtain ⟨t, out', ht, hordered, -⟩ := h.answer hinside hrange
  rw [hs'] at ht
  cases ht
  exact hordered

/-- A `Write` at the end appends. -/
theorem Ordered.contents_write (h : s.Ordered) {pSrc : Buffer} (hroom : s.HasRoom pSrc.count.toNat)
    (hend : s.pos = s.size ∨ pSrc.bytes = []) :
    ∃ s', s.write pSrc.cells pSrc.count = some s' ∧
      s'.size.toNat = s.size.toNat + pSrc.bytes.length ∧
      s'.pos.toNat = s.pos.toNat + pSrc.bytes.length ∧ s'.contents = s.contents ++ pSrc.cells := by
  obtain ⟨s', hs', hsize, hpos, -, hcells⟩ := h.write_eq_some hroom pSrc.count_le_length
  have hkept := take_cells_grow s pSrc.count h.size_le_toNat
  have hlength := hroom.size_grow_le.trans (s.grow pSrc.count).capacity_le_length
  rw [Buffer.toNat_count] at hsize hpos hlength
  refine ⟨s', hs', hsize, hpos, ?_⟩
  rw [contents, hsize, hcells, Buffer.take_cells]
  rcases hend with hend | hnil
  · rw [hend, take_splice (by omega) (by simp), hkept]
    change (s.contents ++ pSrc.cells).take _ = _
    exact List.take_of_length_le (by simp [h.length_contents])
  · have hcellsNil : pSrc.cells = [] := by simp [Buffer.cells, hnil]
    rw [hcellsNil, hnil, splice_nil, List.append_nil, List.length_nil, Nat.add_zero, hkept,
      contents]

/-- The bytes `Read` copies are those at the cursor of the file. -/
theorem Shows.take_drop_cells (h : s.Shows f) {n : ℕ}
    (hn : s.pos.toNat + n ≤ s.size.toNat) :
    (s.cells.drop s.pos.toNat).take n = ((f.contents.drop f.cursor).take n).map some := by
  rw [List.map_take, List.map_drop, ← h.contents_eq, ← h.pos_eq, contents, List.drop_take,
    List.take_take, min_eq_left (by omega)]

/-- Where the file has the bytes, they are copied and passed. -/
theorem Shows.tryRead_of_le (h : s.Shows f) {pDst : List Cell} {count : UInt64}
    (hdst : count.toNat ≤ pDst.length) (hin : f.cursor + count.toNat ≤ f.contents.length) :
    s.tryRead pDst count =
        some (splice pDst 0 (((f.contents.drop f.cursor).take count.toNat).map some),
          s.skip count) ∧
      (s.skip count).Shows ⟨f.contents, f.cursor + count.toNat, hin⟩ := by
  have hsum : s.pos.toNat + count.toNat ≤ s.size.toNat := by
    rw [h.pos_eq, h.size_eq]
    exact hin
  have hwrap : s.pos.toNat + count.toNat < 2 ^ 64 := hsum.trans_lt s.size.toNat_lt
  constructor
  · rw [h.ordered.tryRead_eq_some hdst hwrap, if_pos hsum, h.take_drop_cells hsum]
    rfl
  · refine ⟨h.ordered.skip hsum, h.size_eq, ?_, h.contents_eq⟩
    rw [toNat_pos_skip hsum, h.pos_eq]

theorem Shows.tryRead (h : s.Shows f) (pDst : Buffer)
    (hwrap : s.pos.toNat + pDst.bytes.length < 2 ^ 64) :
    ∃ s', s.tryRead pDst.cells pDst.count = some ((f.read pDst.bytes).2.map some, s') ∧
      s'.Shows (f.read pDst.bytes).1 := by
  rw [ByteFile.read]
  by_cases hin : f.cursor + pDst.bytes.length ≤ f.contents.length
  · rw [dif_pos hin]
    obtain ⟨hread, hshows⟩ := h.tryRead_of_le pDst.count_le_length (by simpa using hin)
    simp only [Buffer.toNat_count] at hread hshows
    refine ⟨s.skip pDst.count, ?_, hshows⟩
    rw [hread, splice_zero]
    simp only [Buffer.length_cells, List.length_map, List.length_take, List.length_drop]
    omega
  · rw [dif_neg hin, h.ordered.tryRead_eq_some (by simp) (by simpa using hwrap), if_neg]
    · exact ⟨s, rfl, h⟩
    · rw [Buffer.toNat_count, h.pos_eq, h.size_eq]
      exact hin

/-- One request in range is answered as by the file. -/
theorem Shows.answer (h : s.Shows f) {r : StreamRequest} (hinside : r.Inside s)
    (hrange : r.InRange s) (hend : r.AtEnd s) :
    ∃ s' f' out, s.answer r = some (s', out) ∧ f.answer r = some (f', out) ∧ s'.Shows f' := by
  have hordered : ∀ {s' : Stream} {out : List Cell}, s.answer r = some (s', out) → s'.Ordered :=
    fun hs' => h.ordered.of_answer hinside hrange hs'
  cases r with
  | create pData =>
      obtain ⟨s', hs', hsize, hpos, -, hcells⟩ :=
        create_eq_some pData.count_le_length
      have ha : s.answer (.create pData) = some (s', []) := by simp [Stream.answer, hs']
      refine ⟨s', .ofBytes pData.bytes, [], ha, rfl, hordered ha, by simp [hsize, ByteFile.ofBytes],
        by simp [hpos, ByteFile.ofBytes], ?_⟩
      rw [contents, hsize, hcells, Buffer.take_cells]
      rfl
  | ofString str =>
      obtain ⟨s', hs', hsize, hpos, -, hcells⟩ := ofString_eq_some str.bounded
      have ha : s.answer (.ofString str) = some (s', []) := by simp [Stream.answer, hs']
      refine ⟨s', .ofBytes str.bytes, [], ha, rfl, hordered ha, by simp [hsize, ByteFile.ofBytes],
        by simp [hpos, ByteFile.ofBytes], ?_⟩
      rw [contents, hsize, hcells]
      rfl
  | write pSrc =>
      have hroom : s.HasRoom pSrc.count.toNat := by rwa [Buffer.toNat_count]
      obtain ⟨s', hs', hsize, hpos, hcontents⟩ := h.ordered.contents_write hroom hend
      have ha : s.answer (.write pSrc) = some (s', []) := by simp [Stream.answer, hs']
      have hwritten : (f.write pSrc.bytes).contents = f.contents ++ pSrc.bytes := by
        rcases hend with hend | hnil
        · exact ByteFile.contents_write_of_eq (by rw [← h.pos_eq, ← h.size_eq, hend]) _
        · rw [hnil, ByteFile.write_nil, List.append_nil]
      refine ⟨s', f.write pSrc.bytes, [], ha, rfl, hordered ha, ?_, ?_, ?_⟩
      · rw [hsize, hwritten, List.length_append, h.size_eq]
      · rw [hpos, h.pos_eq]
        rfl
      · rw [hcontents, hwritten, h.contents_eq, List.map_append]
        rfl
  | read pDst =>
      obtain ⟨s', hs', hshows⟩ := h.tryRead pDst hrange
      exact ⟨s', _, _, by simp [Stream.answer, h.ordered.read_eq_tryRead, hs'], rfl, hshows⟩
  | tryRead pDst =>
      obtain ⟨s', hs', hshows⟩ := h.tryRead pDst hrange
      exact ⟨s', _, _, by simp [Stream.answer, hs'], rfl, hshows⟩
  | setData pData =>
      obtain ⟨s', hs', hsize, hpos, -, hcells⟩ :=
        s.setData_eq_some pData.count_le_length
      have ha : s.answer (.setData pData) = some (s', []) := by simp [Stream.answer, hs']
      have hcursor : f.cursor ≤ pData.bytes.length := by
        rw [← h.pos_eq, ← pData.toNat_count]
        exact UInt64.le_iff_toNat_le.mp hrange
      refine ⟨s', ⟨pData.bytes, f.cursor, hcursor⟩, [], ha, ?_, hordered ha, by simp [hsize],
        by rw [hpos, h.pos_eq], ?_⟩
      · rw [ByteFile.answer, ByteFile.replace_eq_some hcursor, Option.map_some]
      · rw [contents, hsize, hcells, Buffer.take_cells]
        rfl
  | reserve capacity =>
      refine ⟨s.reserve capacity, f, [], rfl, rfl, hordered rfl, by rw [size_reserve, h.size_eq],
        by rw [pos_reserve, h.pos_eq], ?_⟩
      rw [contents, size_reserve, take_cells_reserve s capacity h.ordered.size_le_toNat]
      exact h.contents_eq
  | setPosition position =>
      have hin : position.toNat ≤ f.contents.length := by
        rw [← h.size_eq]
        exact UInt64.le_iff_toNat_le.mp hinside
      refine ⟨s.setPosition position, ⟨f.contents, position.toNat, hin⟩, [], rfl, ?_, hordered rfl,
        h.size_eq, rfl, h.contents_eq⟩
      rw [ByteFile.answer, ByteFile.seek_eq_some hin, Option.map_some]
  | skip count =>
      have hin : f.cursor + count.toNat ≤ f.contents.length := by
        rw [← h.pos_eq, ← h.size_eq]
        exact hinside
      have hpos : (s.skip count).pos.toNat = f.cursor + count.toNat := by
        rw [toNat_pos_skip hinside, h.pos_eq]
      refine ⟨s.skip count, ⟨f.contents, f.cursor + count.toNat, hin⟩, [], rfl, ?_, hordered rfl,
        h.size_eq, hpos, h.contents_eq⟩
      rw [ByteFile.answer, ByteFile.seek_eq_some hin, Option.map_some]

theorem Shows.copy (h : s.Shows f) : s.copy.Shows (.ofBytes f.contents) := by
  refine ⟨h.ordered.copy, h.size_eq, rfl, ?_⟩
  change s.copy.cells.take s.size.toNat = _
  rw [take_cells_copy s h.ordered.size_le_toNat]
  exact h.contents_eq

theorem Shows.copyAssign (h : s.Shows f) (t : Stream) {same : Bool} (hsame : same → s.size = 0) :
    (t.copyAssign s same).Shows (.ofBytes f.contents) := by
  refine ⟨h.ordered.copyAssign t same, h.size_eq, rfl, ?_⟩
  change (t.copyAssign s same).cells.take s.size.toNat = _
  refine Eq.trans ?_ h.contents_eq
  cases same with
  | false => exact take_cells_copyAssign t s h.ordered.size_le_toNat
  | true =>
      rw [contents, hsame rfl]
      simp

end Stream

namespace Streams

variable {ν : Type} [DecidableEq ν] {σ : Streams ν} {φ : Files ν}

def Shows (σ : Streams ν) (φ : Files ν) : Prop := ∀ i, (σ i).Shows (φ i)

omit [DecidableEq ν] in
theorem shows_start : Shows (start : Streams ν) Files.start := fun _ => Stream.shows_empty

theorem Shows.update (h : σ.Shows φ) (i : ν) {s : Stream} {f : ByteFile} (hs : s.Shows f) :
    Shows (Function.update σ i s) (Function.update φ i f) := by
  intro j
  rcases eq_or_ne j i with rfl | hne
  · rwa [Function.update_self, Function.update_self]
  · rw [Function.update_of_ne hne, Function.update_of_ne hne]
    exact h j

/-- The calls for which a stream is a byte file. -/
def IsFileCall (σ : Streams ν) (call : StreamCall ν) : Prop :=
  call.Inside σ ∧ call.InRange σ ∧ call.AtEnd σ

theorem Shows.step (h : σ.Shows φ) {call : StreamCall ν} (hcall : σ.IsFileCall call) :
    ∃ σ' φ' out, Streams.step σ call = some (σ', out) ∧ Files.step φ call = some (φ', out) ∧
      σ'.Shows φ' := by
  obtain ⟨hinside, hrange, hend⟩ := hcall
  cases call with
  | request i r =>
      obtain ⟨s', f', out, hs', hf', hshows⟩ := (h i).answer hinside hrange hend
      exact ⟨_, _, out, by simp only [Streams.step, hs', Option.map_some],
        by simp only [Files.step, hf', Option.map_some], h.update i hshows⟩
  | copy i j => exact ⟨_, _, [], rfl, rfl, h.update i (h j).copy⟩
  | copyAssign i j =>
      refine ⟨_, _, [], rfl, rfl, h.update i ((h j).copyAssign (σ i) ?_)⟩
      intro hsame
      have hij : i = j := of_decide_eq_true hsame
      rw [← hij]
      exact hend hij
  | move i j => exact ⟨_, _, [], rfl, rfl, (h.update j Stream.shows_empty).update i (h j)⟩

/-- Along such calls the streams answer as the files do, and show them after each call. -/
theorem shows_of_isFileCall (calls : List (StreamCall ν))
    (h : Steps.Along step IsFileCall start calls) (n : ℕ) :
    ∃ σ φ outs, Steps.run step start (calls.take n) = some (σ, outs) ∧
      Steps.run Files.step Files.start (calls.take n) = some (φ, outs) ∧ σ.Shows φ :=
  (h.take n).simulates (fun _ _ _ hshows hcall => hshows.step hcall) shows_start

theorem shows_of_isFileCall_sample : ∃ σ φ outs,
    Steps.run step start ([.request false (.write ⟨[97, 98], by decide⟩), .copyAssign true false,
      .request true (.read ⟨[0], by decide⟩)].take 3) = some (σ, outs) ∧
    Steps.run Files.step Files.start ([.request false (.write ⟨[97, 98], by decide⟩),
      .copyAssign true false, .request true (.read ⟨[0], by decide⟩)].take 3) = some (φ, outs) ∧
    σ.Shows φ := by
  apply shows_of_isFileCall
  refine ⟨⟨trivial, Or.inr (by decide), Or.inl rfl⟩, fun r hr => ⟨⟨trivial, trivial, nofun⟩, ?_⟩⟩
  intro r' hr'
  refine ⟨⟨trivial, ?_, trivial⟩, fun _ _ => trivial⟩
  obtain rfl := Option.get_of_eq_some (by rfl) hr
  obtain rfl := Option.get_of_eq_some (by rfl) hr'
  simp only [StreamCall.InRange, StreamRequest.InRange]
  decide

/-- The first of two bytes is overwritten: the size becomes three. -/
theorem not_shows_of_overwrite :
    ¬∀ calls : List (StreamCall Unit),
      Steps.Along step (fun σ call => call.Inside σ) start calls →
        ∃ σ φ outs, Steps.run step start calls = some (σ, outs) ∧
          Steps.run Files.step Files.start calls = some (φ, outs) ∧ σ.Shows φ := by
  intro hall
  let calls : List (StreamCall Unit) := [.request () (.write ⟨[97, 98], by decide⟩),
    .request () (.setPosition 0), .request () (.write ⟨[99], by decide⟩)]
  have hinside : Steps.Along step (fun σ call => call.Inside σ) start calls := by
    refine ⟨trivial, fun r hr => ⟨?_, fun _ _ => ⟨trivial, fun _ _ => trivial⟩⟩⟩
    exact UInt64.zero_le
  obtain ⟨σ, φ, outs, hσ, hφ, hshows⟩ := hall calls hinside
  have hsize : (Steps.run step start calls).map (fun r => (r.1 ()).size.toNat) = some 3 := by
    decide
  have hlength : (Steps.run Files.step Files.start calls).map
      (fun r => (r.1 ()).contents.length) = some 2 := by decide
  rw [hσ] at hsize
  rw [hφ] at hlength
  simp only [Option.map_some, Option.some.injEq] at hsize hlength
  have heq := (hshows ()).size_eq
  omega

end Streams

end SRCommon
