import SRCommon.Types.MarshalBlocks
import SRCommon.World.Region

/-!
# Region files

`Save` writes a version, a count and, for every blob, its size and its bytes.
`Load` cuts the blobs out again and finds the position at the front of each.
-/

namespace SRCommon

open MarshalUtils

namespace Region

variable (m : DataModel)

/-- A blob in a file. -/
def frame (bytes : List UInt8) : List UInt8 :=
  CppType.bytes (uint64Value m (UInt64.ofNat bytes.length)) ++ bytes

/-- The position `Load` finds in a blob. -/
def positionOf (bytes : List UInt8) : IVector3 := .ofBytes (bytes.take IVector3.sizeOf)

def fileBytes (blobs : List (List UInt8)) : List UInt8 :=
  CppType.bytes (versionValue m) ++
    (CppType.bytes (uint64Value m (UInt64.ofNat blobs.length)) ++ blobs.flatMap (frame m))

theorem length_frame (bytes : List UInt8) : (frame m bytes).length = 8 + bytes.length := by
  rw [frame, List.length_append, length_bytes]
  rfl

theorem length_flatMap_frame (blobs : List (List UInt8)) :
    (blobs.flatMap (frame m)).length = (blobs.map fun bytes => 8 + bytes.length).sum := by
  induction blobs with
  | nil => rfl
  | cons bytes blobs ih =>
      rw [List.flatMap_cons, List.length_append, ih, length_frame, List.map_cons, List.sum_cons]

theorem length_fileBytes (blobs : List (List UInt8)) :
    (fileBytes m blobs).length = 10 + (blobs.map fun bytes => 8 + bytes.length).sum := by
  rw [fileBytes, List.length_append, List.length_append, length_flatMap_frame, length_bytes,
    length_bytes, ← Nat.add_assoc]
  rfl

section

variable {m} {s chunk : Marshal} {bytes done : List UInt8}

theorem saveUInt64_eq (h : Stream.Holds s done) (n : UInt64) (hroom : done.length + 8 < 2 ^ 63) :
    ∃ s', saveValue s (uint64Value m n) = some s' ∧
      Stream.Holds s' (done ++ CppType.bytes (uint64Value m n)) := by
  have hbytes : valueBytes (uint64Value m n) = CppType.bytes (uint64Value m n) := if_pos rfl
  have hsaved := saveValue_eq h (uint64Value m n) (by
    rw [List.length_append, hbytes, length_bytes]
    exact hroom)
  rw [hbytes] at hsaved
  exact hsaved

theorem writeChunk_eq (h : Stream.Holds s done) (hchunk : Stream.Carries chunk bytes)
    (hne : bytes ≠ []) (hroom : done.length + (frame m bytes).length < 2 ^ 63) :
    ∃ s', writeChunk m s chunk = some s' ∧ Stream.Holds s' (done ++ frame m bytes) := by
  rw [length_frame] at hroom
  have hsize : chunk.size = UInt64.ofNat bytes.length := by
    rw [← hchunk.toNat_size, UInt64.ofNat_toNat]
  obtain ⟨s₁, hs₁, hholds⟩ := saveUInt64_eq (m := m) h chunk.size (by omega)
  have hlength : (done ++ CppType.bytes (uint64Value m chunk.size)).length = done.length + 8 := by
    rw [List.length_append, length_bytes]
    rfl
  obtain ⟨s₂, hs₂, hholds₂⟩ := Marshal.append_eq hholds hchunk hne (by omega)
  refine ⟨s₂, ?_, ?_⟩
  · rw [writeChunk, hs₁]
    exact hs₂
  · rw [frame, ← hsize, ← List.append_assoc]
    exact hholds₂

/-- Marshals are written one after the other, each as a frame around its bytes. -/
theorem writeChunks_eq {β : Type} (marshal : β → Marshal) (carried : β → List UInt8) {l : List β}
    (hcarries : ∀ b ∈ l, Stream.Carries (marshal b) (carried b) ∧ carried b ≠ [])
    (h : Stream.Holds s done)
    (hroom : done.length + ((l.map carried).flatMap (frame m)).length < 2 ^ 63) :
    ∃ s', (l.map marshal).foldlM (writeChunk m) s = some s' ∧
      Stream.Holds s' (done ++ (l.map carried).flatMap (frame m)) := by
  induction l generalizing s done with
  | nil => exact ⟨s, rfl, by simpa using h⟩
  | cons b l ih =>
      have hbytes : ((b :: l).map carried).flatMap (frame m) =
          frame m (carried b) ++ (l.map carried).flatMap (frame m) := rfl
      rw [hbytes] at hroom ⊢
      rw [List.length_append] at hroom
      obtain ⟨hb, hne⟩ := hcarries b (List.mem_cons_self ..)
      obtain ⟨s₁, hs₁, hholds⟩ := writeChunk_eq (m := m) h hb hne (by omega)
      obtain ⟨s₂, hs₂, hholds₂⟩ := ih (fun c hc => hcarries c (List.mem_cons_of_mem b hc)) hholds (by
        rw [List.length_append]
        omega)
      refine ⟨s₂, ?_, ?_⟩
      · rw [List.map_cons, List.foldlM_cons, hs₁]
        exact hs₂
      · rw [← List.append_assoc]
        exact hholds₂

/-- The loop of `Load` puts every blob under its position and leaves the others alone. -/
theorem loadChunks_eq {blobs : List (List UInt8)}
    (hblobs : ∀ b ∈ blobs, IVector3.sizeOf ≤ b.length ∧ b.length < 2 ^ 63)
    (hnodup : (blobs.map positionOf).Nodup) (h : Stream.Ahead s (blobs.flatMap (frame m)))
    (cached : UnorderedMap IVector3 Marshal) :
    ∃ s' cached', loadChunks m blobs.length s cached = some (s', cached') ∧ Stream.Ahead s' [] ∧
      (∀ b ∈ blobs, ∃ chunk, cached'.lookup (positionOf b) = some chunk ∧
        Stream.Carries chunk b) ∧
      ∀ p, p ∉ blobs.map positionOf → cached'.lookup p = cached.lookup p := by
  induction blobs generalizing s cached with
  | nil => exact ⟨s, cached, rfl, h, by simp, fun _ _ => rfl⟩
  | cons b blobs ih =>
      obtain ⟨hsizeOf, hlt⟩ := hblobs b (List.mem_cons_self ..)
      rw [List.map_cons, List.nodup_cons] at hnodup
      rw [List.flatMap_cons, frame, List.append_assoc] at h
      obtain ⟨s₁, hs₁, hahead⟩ := loadValue_eq rfl (uint64Value m (UInt64.ofNat b.length)) h
      have hcount : (UInt64.ofNat
          (uint64Value m (UInt64.ofNat b.length) : ℕ)).toNat = b.length := by
        change (UInt64.ofNat (UInt64.ofNat b.length).toNat).toNat = b.length
        rw [UInt64.ofNat_toNat, UInt64.toNat_ofNat_of_lt' (hlt.trans (by decide))]
      obtain ⟨chunk, s₂, hs₂, hshows, hahead₂⟩ := Marshal.readBytesPtr_eq hahead hcount
      have hcarries := hshows.carries
      have hview := Marshal.viewIVector3_eq hcarries hsizeOf
      have hne : b ≠ [] := by
        rintro rfl
        exact absurd hsizeOf (by decide)
      obtain ⟨s₃, cached', hs₃, hahead₃, hfound, hkept⟩ := ih
        (fun c hc => hblobs c (List.mem_cons_of_mem b hc)) hnodup.2 hahead₂
        (cached.insert (positionOf b) chunk)
      refine ⟨s₃, cached', ?_, hahead₃, ?_, fun p hp => ?_⟩
      · rw [List.length_cons, loadChunks, hs₁]
        simp only [Option.bind_eq_bind, Option.bind_some, hs₂, hview, hcarries.valid hne, if_true]
        exact hs₃
      · intro c hc
        rcases List.mem_cons.mp hc with rfl | hc
        · exact ⟨chunk, by rw [hkept _ hnodup.1, AList.lookup_insert], hcarries⟩
        · exact hfound c hc
      · rw [List.map_cons, List.mem_cons, not_or] at hp
        rw [hkept p hp.2, AList.lookup_insert_ne hp.1]

theorem length_le_fileBytes (blobs : List (List UInt8)) :
    blobs.length ≤ (fileBytes m blobs).length := by
  rw [length_fileBytes]
  induction blobs with
  | nil => exact Nat.zero_le _
  | cons b blobs ih =>
      rw [List.length_cons, List.map_cons, List.sum_cons]
      omega

theorem mem_length_le_fileBytes {blobs : List (List UInt8)} {b : List UInt8} (hb : b ∈ blobs) :
    b.length ≤ (fileBytes m blobs).length := by
  rw [length_fileBytes]
  induction blobs with
  | nil => cases hb
  | cons c blobs ih =>
      rw [List.map_cons, List.sum_cons]
      rcases List.mem_cons.mp hb with rfl | hb
      · omega
      · have hle := ih hb
        omega

theorem loadFile_fileBytes {blobs : List (List UInt8)}
    (hblobs : ∀ b ∈ blobs, IVector3.sizeOf ≤ b.length) (hnodup : (blobs.map positionOf).Nodup)
    (hroom : (fileBytes m blobs).length < 2 ^ 63) (cached : UnorderedMap IVector3 Marshal) :
    ∃ marshal cached', loadFile m (fileBytes m blobs) cached = some (true, marshal, cached') ∧
      marshal.pos = marshal.size ∧
      (∀ b ∈ blobs, ∃ chunk, cached'.lookup (positionOf b) = some chunk ∧
        Stream.Carries chunk b) ∧
      ∀ p, p ∉ blobs.map positionOf → cached'.lookup p = cached.lookup p := by
  have hbounded : (fileBytes m blobs).length < 2 ^ 64 := hroom.trans (by decide)
  obtain ⟨s, hs, hahead⟩ := Stream.ahead_ofString hbounded
  obtain ⟨s₁, hs₁, hahead₁⟩ := loadValue_eq rfl (versionValue m) hahead
  obtain ⟨s₂, hs₂, hahead₂⟩ :=
    loadValue_eq rfl (uint64Value m (UInt64.ofNat blobs.length)) hahead₁
  have hcount : (uint64Value m (UInt64.ofNat blobs.length) : ℕ) = blobs.length :=
    UInt64.toNat_ofNat_of_lt' (((length_le_fileBytes (m := m) blobs).trans_lt hroom).trans
      (by decide))
  obtain ⟨s₃, cached', hs₃, hahead₃, hfound, hkept⟩ := loadChunks_eq
    (fun b hb => ⟨hblobs b hb, (mem_length_le_fileBytes hb).trans_lt hroom⟩) hnodup hahead₂ cached
  refine ⟨s₃, cached', ?_, hahead₃.pos_eq_size, hfound, hkept⟩
  rw [loadFile, hs]
  simp only [Option.bind_eq_bind, Option.bind_some, hs₁, ne_eq, not_true_eq_false, if_false, hs₂,
    hcount, hs₃]

theorem loadFile_nil (m : DataModel) : ∃ marshal,
    loadFile m [] ∅ = some (false, marshal, ∅) ∧ marshal.pos = marshal.size := by
  cases m <;> exact ⟨_, rfl, rfl⟩

/-- What is loaded into an empty map is what was found in the file. -/
theorem mem_loaded_iff {blobs : List (List UInt8)} {cached : UnorderedMap IVector3 Marshal}
    (hfound : ∀ b ∈ blobs, ∃ chunk, cached.lookup (positionOf b) = some chunk ∧
      Stream.Carries chunk b)
    (hkept : ∀ p, p ∉ blobs.map positionOf → cached.lookup p =
      (∅ : UnorderedMap IVector3 Marshal).lookup p) (p : IVector3) :
    p ∈ cached ↔ p ∈ blobs.map positionOf := by
  rw [← AList.lookup_isSome]
  constructor
  · intro hsome
    by_contra hp
    rw [hkept p hp] at hsome
    cases hsome
  · intro hp
    obtain ⟨bytes, hbytes, rfl⟩ := List.mem_map.mp hp
    obtain ⟨chunk, hchunk, -⟩ := hfound bytes hbytes
    rw [hchunk]
    rfl

theorem load_of_loadFile {γ : Type} {file : List UInt8} {ok : Bool} {marshal : Marshal}
    {cached : UnorderedMap IVector3 Marshal}
    (hfile : loadFile m file ∅ = some (ok, marshal, cached)) (position : IVector3) (width : ℤ) :
    Region.load m (some file) { position := position, width := width } =
      some (ok, ({ position := position, width := width, cached := cached } : Region γ)) := by
  rw [Region.load]
  simp only [hfile, Option.map_some]

/-! ## Regions -/

variable {γ : Type} {saveChunk : Chunk γ → Option Marshal} {r : Region γ}

def loadedBlobs (saveChunk : Chunk γ → Option Marshal) (r : Region γ) :
    List (IVector3 × Marshal) :=
  r.loadedChunks.entries.filterMap fun e =>
    ((saveChunk e.2).filter Marshal.valid).map (Prod.mk e.1)

def cachedBlobs (r : Region γ) : List (IVector3 × Marshal) :=
  r.cached.entries.map fun e => (e.1, e.2)

/-- The blobs of a region under the positions of their chunks. -/
def blobs (saveChunk : Chunk γ → Option Marshal) (r : Region γ) : List (IVector3 × Marshal) :=
  r.loadedBlobs saveChunk ++ r.cachedBlobs

/-- The bytes of a marshal. -/
def bytesOf (s : Marshal) : List UInt8 := (known (Stream.contents s)).getD []

theorem bytesOf_eq (h : Stream.Carries s bytes) : bytesOf s = bytes := by
  rw [bytesOf, h.contents_eq, known_map_some, Option.getD_some]

/-- Every blob begins with the position of its chunk, no two have the same one, and the file fits
in memory. -/
structure Savable (saveChunk : Chunk γ → Option Marshal) (r : Region γ) : Prop where
  blob : ∀ b ∈ r.blobs saveChunk, ∃ bytes, Stream.Carries b.2 bytes ∧
    IVector3.sizeOf ≤ bytes.length ∧ positionOf bytes = b.1
  nodup : ((r.blobs saveChunk).map Prod.fst).Nodup
  room : 10 + ((r.blobs saveChunk).map fun b => 8 + b.2.size.toNat).sum < 2 ^ 63

theorem available_eq (saveChunk : Chunk γ → Option Marshal) (r : Region γ) :
    r.available saveChunk =
      (r.loadedBlobs saveChunk).map Prod.snd ++ r.cachedBlobs.map fun b => b.2.copy := by
  rw [available, loadedBlobs, cachedBlobs, List.map_filterMap, List.map_map]
  congr 1
  refine List.filterMap_congr fun e _ => ?_
  rw [Option.map_map]
  cases (saveChunk e.2).filter Marshal.valid <;> rfl

/-- The bytes of the blobs, in the order in which they are written. -/
def blobBytes (saveChunk : Chunk γ → Option Marshal) (r : Region γ) : List (List UInt8) :=
  (r.blobs saveChunk).map fun b => bytesOf b.2

namespace Savable

theorem carries (h : r.Savable saveChunk) {b : IVector3 × Marshal} (hb : b ∈ r.blobs saveChunk) :
    Stream.Carries b.2 (bytesOf b.2) ∧ IVector3.sizeOf ≤ (bytesOf b.2).length ∧
      positionOf (bytesOf b.2) = b.1 := by
  obtain ⟨bytes, hcarries, hlength, hposition⟩ := h.blob b hb
  rw [bytesOf_eq hcarries]
  exact ⟨hcarries, hlength, hposition⟩

theorem ne_nil (h : r.Savable saveChunk) {b : IVector3 × Marshal} (hb : b ∈ r.blobs saveChunk) :
    bytesOf b.2 ≠ [] := by
  intro hnil
  have hlength := (h.carries hb).2.1
  rw [hnil] at hlength
  exact absurd hlength (by decide)

theorem map_positionOf (h : r.Savable saveChunk) :
    (r.blobBytes saveChunk).map positionOf = (r.blobs saveChunk).map Prod.fst := by
  rw [blobBytes, List.map_map]
  exact List.map_congr_left fun b hb => (h.carries hb).2.2

theorem length_lt (h : r.Savable saveChunk) :
    (fileBytes m (r.blobBytes saveChunk)).length < 2 ^ 63 := by
  have hsum : ((r.blobBytes saveChunk).map fun bytes => 8 + bytes.length) =
      (r.blobs saveChunk).map fun b => 8 + b.2.size.toNat := by
    rw [blobBytes, List.map_map]
    refine List.map_congr_left fun b hb => ?_
    rw [Function.comp_apply, (h.carries hb).1.toNat_size]
  rw [length_fileBytes, hsum]
  exact h.room

theorem writeAvailable_eq (h : r.Savable saveChunk) (hholds : Stream.Holds s done)
    (hroom : done.length + ((r.blobBytes saveChunk).flatMap (frame m)).length < 2 ^ 63) :
    ∃ s', (r.available saveChunk).foldlM (writeChunk m) s = some s' ∧
      Stream.Holds s' (done ++ (r.blobBytes saveChunk).flatMap (frame m)) := by
  have hsplit : (r.blobBytes saveChunk).flatMap (frame m) =
      ((r.loadedBlobs saveChunk).map fun b => bytesOf b.2).flatMap (frame m) ++
        (r.cachedBlobs.map fun b => bytesOf b.2).flatMap (frame m) := by
    rw [blobBytes, blobs, List.map_append, List.flatMap_append]
  rw [hsplit, List.length_append] at hroom
  obtain ⟨s₁, hs₁, hholds₁⟩ := writeChunks_eq (m := m) Prod.snd (fun b => bytesOf b.2)
    (l := r.loadedBlobs saveChunk) (fun b hb => ⟨(h.carries (List.mem_append_left _ hb)).1,
      h.ne_nil (List.mem_append_left _ hb)⟩) hholds (by omega)
  obtain ⟨s₂, hs₂, hholds₂⟩ := writeChunks_eq (m := m) (fun b => Stream.copy b.2)
    (fun b => bytesOf b.2) (l := r.cachedBlobs) (fun b hb =>
      ⟨(h.carries (List.mem_append_right _ hb)).1.copy, h.ne_nil (List.mem_append_right _ hb)⟩)
    hholds₁ (by
      rw [List.length_append]
      omega)
  refine ⟨s₂, ?_, ?_⟩
  · rw [available_eq, List.foldlM_append, hs₁]
    exact hs₂
  · rw [hsplit, ← List.append_assoc]
    exact hholds₂

/-- `Save` writes the file of the blobs, or nothing at all. -/
theorem save_eq (h : r.Savable saveChunk) :
    ∃ s, r.save m saveChunk = some s ∧ Stream.Holds s
      (if r.blobBytes saveChunk = [] then [] else fileBytes m (r.blobBytes saveChunk)) := by
  have hlength : (r.available saveChunk).length = (r.blobBytes saveChunk).length := by
    rw [available_eq, blobBytes, blobs, List.length_append, List.length_map, List.length_map,
      List.length_map, List.length_append]
  have hroom := h.length_lt (m := m)
  have hcount := (length_le_fileBytes (m := m) (r.blobBytes saveChunk)).trans_lt hroom
  have htoNat : (UInt64.ofNat (r.blobBytes saveChunk).length).toNat =
      (r.blobBytes saveChunk).length := UInt64.toNat_ofNat_of_lt' (hcount.trans (by decide))
  rw [save, hlength]
  by_cases hnil : r.blobBytes saveChunk = []
  · rw [if_pos hnil, hnil]
    exact ⟨_, rfl, Stream.holds_empty⟩
  · have hnonzero : UInt64.ofNat (r.blobBytes saveChunk).length ≠ 0 := by
      intro hzero
      rw [hzero] at htoNat
      exact hnil (List.eq_nil_of_length_eq_zero htoNat.symm)
    have hversion : valueBytes (versionValue m) = CppType.bytes (versionValue m) := if_pos rfl
    have hwidth : (CppType.bytes (versionValue m)).length = 2 := length_bytes _
    rw [fileBytes, List.length_append, List.length_append] at hroom
    obtain ⟨s₁, hs₁, hholds₁⟩ := saveValue_eq Stream.holds_empty (versionValue m) (by
      rw [hversion, List.nil_append, hwidth]
      decide)
    rw [hversion, List.nil_append] at hholds₁
    obtain ⟨s₂, hs₂, hholds₂⟩ := saveUInt64_eq (m := m) hholds₁
      (UInt64.ofNat (r.blobBytes saveChunk).length) (by
        rw [hwidth]
        decide)
    obtain ⟨s₃, hs₃, hholds₃⟩ := h.writeAvailable_eq (m := m) hholds₂ (by
      rw [List.length_append]
      omega)
    refine ⟨s₃, ?_, ?_⟩
    · rw [if_neg hnonzero, hs₁]
      simp only [Option.bind_eq_bind, Option.bind_some, hs₂]
      exact hs₃
    · rw [if_neg hnil, fileBytes, ← List.append_assoc]
      exact hholds₃

/-- A region is loaded as it was saved: every blob is found under its position and no other
position is, and the whole buffer is read. -/
theorem load_save (m : DataModel) (h : r.Savable saveChunk) (position : IVector3) (width : ℤ) :
    ∃ pMarshal file ok marshal cached, r.save m saveChunk = some pMarshal ∧
      Stream.contents pMarshal = file.map some ∧
      loadFile m file ∅ = some (ok, marshal, cached) ∧ marshal.pos = marshal.size ∧
      Region.load m (some file) { position := position, width := width } =
        some (ok, ({ position := position, width := width, cached := cached } : Region γ)) ∧
      (∀ p, p ∈ cached ↔ p ∈ (r.blobs saveChunk).map Prod.fst) ∧
      ∀ b ∈ r.blobs saveChunk, ∃ chunk bytes, cached.lookup b.1 = some chunk ∧
        Stream.Carries chunk bytes ∧ Stream.Carries b.2 bytes := by
  obtain ⟨pMarshal, hsave, hholds⟩ := h.save_eq (m := m)
  have hpositions := h.map_positionOf
  by_cases hnil : r.blobBytes saveChunk = []
  · rw [if_pos hnil] at hholds
    obtain ⟨marshal, hfile, hend⟩ := loadFile_nil m
    have hblobs : r.blobs saveChunk = [] := List.map_eq_nil_iff.mp hnil
    refine ⟨pMarshal, [], false, marshal, ∅, hsave, hholds.contents_eq, hfile, hend,
      load_of_loadFile hfile position width, ?_, ?_⟩
    · intro p
      rw [hblobs]
      simp
    · rw [hblobs]
      simp
  · rw [if_neg hnil] at hholds
    have hlengths : ∀ b ∈ r.blobBytes saveChunk, IVector3.sizeOf ≤ b.length := by
      intro b hb
      obtain ⟨c, hc, rfl⟩ := List.mem_map.mp hb
      exact (h.carries hc).2.1
    have hnodup : ((r.blobBytes saveChunk).map positionOf).Nodup := by
      rw [hpositions]
      exact h.nodup
    obtain ⟨marshal, cached, hfile, hend, hfound, hkept⟩ :=
      loadFile_fileBytes (m := m) hlengths hnodup h.length_lt ∅
    refine ⟨pMarshal, _, true, marshal, cached, hsave, hholds.contents_eq, hfile, hend,
      load_of_loadFile hfile position width, fun p => ?_, fun b hb => ?_⟩
    · rw [← hpositions]
      exact mem_loaded_iff hfound hkept p
    · obtain ⟨hcarries, -, hposition⟩ := h.carries hb
      obtain ⟨chunk, hchunk, hchunkCarries⟩ := hfound _ (List.mem_map_of_mem hb)
      rw [hposition] at hchunk
      exact ⟨chunk, _, hchunk, hchunkCarries, hcarries⟩

/-- A chunk at `(1, 1, 1)` and a cached blob of `(1, 2, -1)` come back. -/
theorem load_save_sample : ∃ saved cached : Marshal,
    Stream.Carries saved [1, 0, 0, 0, 1, 0, 0, 0, 1, 0, 0, 0, 7] ∧
      Stream.Carries cached [1, 0, 0, 0, 2, 0, 0, 0, 255, 255, 255, 255] ∧
      ∃ pMarshal file ok marshal loaded,
        Region.save .lp64 (fun _ => some saved)
            { position := ⟨1, 1, 1⟩, width := 2
              loadedChunks := .singleton ⟨1, 1, 1⟩ ({ position := ⟨1, 1, 1⟩ } : Chunk Unit)
              cached := .singleton ⟨1, 2, -1⟩ cached } = some pMarshal ∧
          Stream.contents pMarshal = file.map some ∧
          loadFile .lp64 file ∅ = some (ok, marshal, loaded) ∧ marshal.pos = marshal.size ∧
          ⟨1, 1, 1⟩ ∈ loaded ∧ ⟨1, 2, -1⟩ ∈ loaded ∧ ⟨2, 1, 1⟩ ∉ loaded := by
  obtain ⟨saved, -, hsaved⟩ : ∃ s,
      Stream.create ([1, 0, 0, 0, 1, 0, 0, 0, 1, 0, 0, 0, 7].map some) 13 = some s ∧
        s.Carries [1, 0, 0, 0, 1, 0, 0, 0, 1, 0, 0, 0, 7] := Stream.carries_create rfl rfl
  obtain ⟨cached, -, hcached⟩ : ∃ s,
      Stream.create ([1, 0, 0, 0, 2, 0, 0, 0, 255, 255, 255, 255].map some) 12 = some s ∧
        s.Carries [1, 0, 0, 0, 2, 0, 0, 0, 255, 255, 255, 255] := Stream.carries_create rfl rfl
  refine ⟨saved, cached, hsaved, hcached, ?_⟩
  have hblobs : Region.blobs (fun _ => some saved)
      { position := ⟨1, 1, 1⟩, width := 2
        loadedChunks := .singleton ⟨1, 1, 1⟩ ({ position := ⟨1, 1, 1⟩ } : Chunk Unit)
        cached := .singleton ⟨1, 2, -1⟩ cached } =
      [(⟨1, 1, 1⟩, saved), (⟨1, 2, -1⟩, cached)] := by
    simp [blobs, loadedBlobs, cachedBlobs, Option.filter, hsaved.valid]
  have hpositions := congrArg (List.map Prod.fst) hblobs
  change _ = [(⟨1, 1, 1⟩ : IVector3), ⟨1, 2, -1⟩] at hpositions
  have hsavable : Savable (fun _ => some saved)
      { position := ⟨1, 1, 1⟩, width := 2
        loadedChunks := .singleton ⟨1, 1, 1⟩ ({ position := ⟨1, 1, 1⟩ } : Chunk Unit)
        cached := .singleton ⟨1, 2, -1⟩ cached } := by
    refine ⟨?_, ?_, ?_⟩
    · rw [hblobs]
      simp only [List.mem_cons, List.not_mem_nil, or_false, forall_eq_or_imp, forall_eq]
      exact ⟨⟨_, hsaved, by decide, by decide⟩, _, hcached, by decide, by decide⟩
    · rw [hpositions]
      decide
    · rw [hblobs]
      simp [hsaved.toNat_size, hcached.toNat_size]
  obtain ⟨pMarshal, file, ok, marshal, loaded, hsave, hcontents, hfile, hend, -, hmem, -⟩ :=
    load_save .lp64 hsavable ⟨1, 1, 1⟩ 2
  rw [hpositions] at hmem
  exact ⟨pMarshal, file, ok, marshal, loaded, hsave, hcontents, hfile, hend,
    (hmem _).mpr (by decide), (hmem _).mpr (by decide), mt (hmem _).mp (by decide)⟩

end Savable

end

end Region

end SRCommon
