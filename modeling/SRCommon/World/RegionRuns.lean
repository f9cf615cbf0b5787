import SRCommon.Lib.KeyedUpdate
import SRCommon.Lib.PartialRun
import SRCommon.World.Region

/-!
# Runs of a region

A position is loaded or cached, never both. What a chunk leaves behind stays in
the cache until `GetChunk` hands it to a new chunk, as long as `Load` brings no
other contents for it.
-/

namespace SRCommon

inductive RegionCall (γ : Type) where
  | load (file : Option (List UInt8))
  | getChunk (position : IVector3)
  | update (dt : ℚ) (saveChunk : Chunk γ → Option Marshal)
  /-- `Unload(false)`. -/
  | unload (saveChunk : Chunk γ → Option Marshal)
  | save (saveChunk : Chunk γ → Option Marshal)

/-- What a call saves of a chunk that it takes out of the region. -/
def RegionCall.saved {γ : Type} (c : Chunk γ) : RegionCall γ → Option Marshal
  | .update dt saveChunk => saveChunk (c.update dt)
  | .unload saveChunk => saveChunk c
  | _ => none

namespace Region

variable {γ : Type} (m : DataModel) (loadObject : Marshal → Option (Option γ × Marshal))

def step (r : Region γ) : RegionCall γ → Option (Region γ × Unit)
  | .load file => (r.load m file).map fun l => (l.2, ())
  | .getChunk position => (r.getChunk m loadObject position).map fun g => (g.2, ())
  | .update dt saveChunk => some (r.update dt saveChunk, ())
  | .unload saveChunk => some (r.unload false saveChunk, ())
  | .save saveChunk => (r.save m saveChunk).map fun _ => (r, ())

/-- What one call keeps of the chunks that are loaded and cached. -/
structure Keeps (r : Region γ) (call : RegionCall γ) (r' : Region γ) : Prop where
  exclusive : ∀ p c, r'.loadedChunks.lookup p = some c → c.loadState ≠ .unload → p ∉ r'.cached
  leaving : ∀ p c pMarshal, r.loadedChunks.lookup p = some c → p ∉ r'.loadedChunks →
    call.saved c = some pMarshal → pMarshal.valid = true → r'.cached.lookup p = some pMarshal
  kept : ∀ p b, r.cached.lookup p = some b →
    (∃ b', r'.cached.lookup p = some b' ∧ Stream.contents b' = Stream.contents b) ∨
      call = .getChunk p ∧ p ∉ r.loadedChunks ∧ ∃ pChunk ok,
        ({ position := p } : Chunk γ).preLoad m loadObject (some b.copy) = some (pChunk, ok) ∧
          r'.loadedChunks.lookup p = some pChunk

/-- `Load` comes while no chunk is loaded. -/
def LoadsEmpty (r : Region γ) : RegionCall γ → Prop
  | .load _ => r.loadedChunks = ∅
  | _ => True

/-- The file that is loaded has no other contents for a cached position. -/
def Agrees (r : Region γ) : RegionCall γ → Prop
  | .load file => ∀ l, ({ r with cached := ∅ } : Region γ).load m file = some l →
      ∀ p b b', r.cached.lookup p = some b → l.2.cached.lookup p = some b' →
        Stream.contents b' = Stream.contents b
  | _ => True

/-- No position is loaded and cached. -/
def Exclusive (r : Region γ) : Prop := ∀ p, p ∈ r.loadedChunks → p ∉ r.cached

/-! ## The maps after a call -/

section

variable {m loadObject} {r : Region γ}

theorem lookup_cacheChunk_same (cached : UnorderedMap IVector3 Marshal) (p : IVector3)
    (pMarshal : Option Marshal) :
    (cacheChunk cached p pMarshal).lookup p =
      (pMarshal.filter Marshal.valid).or (cached.lookup p) := by
  rw [cacheChunk]
  split
  · rename_i blob hblob
    rw [hblob, AList.lookup_insert, Option.some_or]
  · rename_i hblob
    rw [hblob, Option.none_or]

theorem lookup_cacheChunk_ne (cached : UnorderedMap IVector3 Marshal) {p q : IVector3}
    (hne : q ≠ p) (pMarshal : Option Marshal) :
    (cacheChunk cached p pMarshal).lookup q = cached.lookup q := by
  rw [cacheChunk]
  split
  · exact AList.lookup_insert_ne hne
  · rfl

theorem loadedChunks_update (dt : ℚ) (saveChunk : Chunk γ → Option Marshal) (r : Region γ)
    (p : IVector3) :
    (r.update dt saveChunk).loadedChunks.lookup p =
      (r.loadedChunks.lookup p).bind fun c =>
        if (c.update dt).isAlive then some (c.update dt) else none := by
  have hfold := KeyedFold.at_foldl
    (g := fun _ (c : Chunk γ) _ => if (c.update dt).isAlive then some (c.update dt) else none)
    (v := fun (r : Region γ) p => r.loadedChunks.lookup p) (f := updateChunk dt saveChunk)
    (fun s k c => ?_) (fun s k c j hne => ?_) r.loadedChunks r p
  · refine hfold.trans ?_
    cases r.loadedChunks.lookup p <;> rfl
  · rw [updateChunk]
    split
    · exact AList.lookup_insert _
    · exact AList.lookup_erase _ _
  · rw [updateChunk]
    split
    · exact AList.lookup_insert_ne hne
    · exact AList.lookup_erase_ne hne

theorem cached_update (dt : ℚ) (saveChunk : Chunk γ → Option Marshal) (r : Region γ)
    (p : IVector3) :
    (r.update dt saveChunk).cached.lookup p =
      (r.loadedChunks.lookup p).elim (r.cached.lookup p) fun c =>
        if (c.update dt).isAlive then r.cached.lookup p
        else ((saveChunk (c.update dt)).filter Marshal.valid).or (r.cached.lookup p) := by
  refine KeyedFold.at_foldl
    (g := fun _ (c : Chunk γ) x =>
      if (c.update dt).isAlive then x
      else ((saveChunk (c.update dt)).filter Marshal.valid).or x)
    (v := fun (r : Region γ) p => r.cached.lookup p) (f := updateChunk dt saveChunk)
    (fun s k c => ?_) (fun s k c j hne => ?_) r.loadedChunks r p
  · rw [updateChunk]
    split
    · rfl
    · exact lookup_cacheChunk_same _ _ _
  · rw [updateChunk]
    split
    · rfl
    · exact lookup_cacheChunk_ne _ hne _

theorem cached_unload (saveChunk : Chunk γ → Option Marshal) (r : Region γ) (p : IVector3) :
    (r.unload false saveChunk).cached.lookup p =
      (r.loadedChunks.lookup p).elim (r.cached.lookup p) fun c =>
        ((saveChunk c).filter Marshal.valid).or (r.cached.lookup p) :=
  KeyedFold.at_foldl
    (g := fun _ (c : Chunk γ) x => ((saveChunk c).filter Marshal.valid).or x)
    (v := fun (r : Region γ) p => r.cached.lookup p)
    (f := fun r position pChunk =>
      if false then r else { r with cached := cacheChunk r.cached position (saveChunk pChunk) })
    (fun _ _ _ => lookup_cacheChunk_same _ _ _)
    (fun _ _ _ _ hne => lookup_cacheChunk_ne _ hne _) r.loadedChunks r p

/-- What the loop of `Load` puts into a map does not depend on the map. -/
theorem lookup_loadChunks {count : ℕ} {marshal marshal' : Marshal}
    {cached cached' t : UnorderedMap IVector3 Marshal}
    (h : loadChunks m count marshal cached = some (marshal', cached')) :
    ∃ t', loadChunks m count marshal t = some (marshal', t') ∧
      ∀ p, (cached'.lookup p = cached.lookup p ∧ t'.lookup p = t.lookup p) ∨
        ∃ b, cached'.lookup p = some b ∧ t'.lookup p = some b := by
  induction count generalizing marshal cached t with
  | zero =>
      cases h
      exact ⟨t, rfl, fun p => Or.inl ⟨rfl, rfl⟩⟩
  | succ count ih =>
      simp only [loadChunks, Option.bind_eq_bind, Option.bind_eq_some_iff] at h ⊢
      obtain ⟨size, hsize, chunk?, hchunk?, chunk, hchunk, position, hposition, hrest⟩ := h
      obtain ⟨t', ht', hlookup⟩ := ih (t :=
        if chunk.valid then t.insert position chunk else t) hrest
      refine ⟨t', ⟨size, hsize, chunk?, hchunk?, chunk, hchunk, position, hposition, ht'⟩,
        fun p => ?_⟩
      rcases hlookup p with ⟨hcached, ht⟩ | hboth
      · split at hcached
        · rename_i hvalid
          rw [if_pos hvalid] at ht
          by_cases hp : p = position
          · subst hp
            rw [AList.lookup_insert] at hcached ht
            exact Or.inr ⟨chunk, hcached, ht⟩
          · rw [AList.lookup_insert_ne hp] at hcached ht
            exact Or.inl ⟨hcached, ht⟩
        · rename_i hvalid
          rw [if_neg hvalid] at ht
          exact Or.inl ⟨hcached, ht⟩
      · exact Or.inr hboth

theorem lookup_loadFile {file : List UInt8} {cached t : UnorderedMap IVector3 Marshal}
    {l : Bool × Marshal × UnorderedMap IVector3 Marshal} (h : loadFile m file cached = some l) :
    ∃ l', loadFile m file t = some l' ∧
      ∀ p, (l.2.2.lookup p = cached.lookup p ∧ l'.2.2.lookup p = t.lookup p) ∨
        ∃ b, l.2.2.lookup p = some b ∧ l'.2.2.lookup p = some b := by
  simp only [loadFile, Option.bind_eq_bind, Option.bind_eq_some_iff] at h ⊢
  obtain ⟨marshal, hmarshal, ⟨version, marshal₁⟩, hversion, hrest⟩ := h
  by_cases hnewer : version ≠ versionValue m
  · rw [if_pos hnewer] at hrest
    cases hrest
    exact ⟨_, ⟨marshal, hmarshal, _, hversion, if_pos hnewer⟩, fun p => Or.inl ⟨rfl, rfl⟩⟩
  · rw [if_neg hnewer] at hrest
    simp only [Option.bind_eq_some_iff] at hrest
    obtain ⟨count, hcount, ⟨marshal₂, cached'⟩, hchunks, heq⟩ := hrest
    cases heq
    obtain ⟨t', ht', hlookup⟩ := lookup_loadChunks (t := t) hchunks
    refine ⟨(true, marshal₂, t'), ⟨marshal, hmarshal, _, hversion, ?_⟩, hlookup⟩
    rw [if_neg hnewer]
    simp only [Option.bind_eq_some_iff]
    exact ⟨count, hcount, _, ht', rfl⟩

/-- `GetChunk` changes the maps at its position only, and empties the cache there. -/
theorem getChunk_cases {p : IVector3} {g : Option (Chunk γ) × Region γ}
    (h : r.getChunk m loadObject p = some g) :
    g.2 = r ∨ ∃ pChunk, g.2.loadedChunks = r.loadedChunks.insert p pChunk ∧
      (g.2.cached = r.cached ∧ (p ∉ r.loadedChunks → p ∉ r.cached) ∨
        g.2.cached = r.cached.erase p ∧ ∀ b, r.cached.lookup p = some b → p ∉ r.loadedChunks →
          ∃ ok, ({ position := p } : Chunk γ).preLoad m loadObject (some b.copy) =
            some (pChunk, ok)) := by
  rw [getChunk] at h
  split at h
  · cases h
    exact Or.inl rfl
  · right
    simp only at h
    split at h
    · split at h
      · rename_i b hb
        obtain ⟨⟨pChunk, ok⟩, hpreLoad, heq⟩ := Option.bind_eq_some_iff.mp h
        cases heq
        refine ⟨pChunk, AList.insert_insert _, Or.inr ⟨rfl, fun b' hb' hnew => ⟨ok, ?_⟩⟩⟩
        rw [hb] at hb'
        cases hb'
        rw [AList.lookup_eq_none.mpr hnew] at hpreLoad
        exact hpreLoad
      · rename_i hnone
        obtain ⟨⟨pChunk, ok⟩, -, heq⟩ := Option.bind_eq_some_iff.mp h
        cases heq
        exact ⟨pChunk, AList.insert_insert _, Or.inl ⟨rfl, fun _ => AList.lookup_eq_none.mp hnone⟩⟩
    · rename_i hstate
      cases h
      refine ⟨_, rfl, Or.inl ⟨rfl, fun hnew => absurd ?_ hstate⟩⟩
      rw [AList.lookup_eq_none.mpr hnew]
      rfl

/-! ## Runs -/

theorem Exclusive.keeps_self (h : r.Exclusive) (call : RegionCall γ) :
    Keeps m loadObject r call r where
  exclusive p c hc _ := h p (AList.lookup_isSome.mp (by rw [hc]; rfl))
  leaving p c pMarshal hc hgone _ _ := absurd (AList.lookup_isSome.mp (by rw [hc]; rfl)) hgone
  kept p b hb := Or.inl ⟨b, hb, rfl⟩

theorem filter_valid {pMarshal : Marshal} (h : pMarshal.valid = true) :
    (some pMarshal).filter Marshal.valid = some pMarshal := by
  rw [Option.filter_some, if_pos h]

theorem Exclusive.load (h : r.Exclusive) {file : Option (List UInt8)} (hempty : r.loadedChunks = ∅)
    (hagrees : r.Agrees m (.load file)) {l : Bool × Region γ} (hload : r.load m file = some l) :
    Keeps m loadObject r (.load file) l.2 ∧ l.2.Exclusive := by
  cases file with
  | none =>
      cases hload
      exact ⟨h.keeps_self _, h⟩
  | some file =>
      obtain ⟨loaded, hloaded, rfl⟩ := Option.map_eq_some_iff.mp hload
      obtain ⟨fresh, hfresh, hlookup⟩ := lookup_loadFile (t := ∅) hloaded
      have hexclusive : ({ r with cached := loaded.2.2 } : Region γ).Exclusive := by
        intro p hp
        simp only [hempty] at hp
        exact absurd hp (AList.notMem_empty p)
      refine ⟨⟨fun p c hc _ => ?_, fun p c _ hc _ _ _ => ?_, fun p b hb => Or.inl ?_⟩, hexclusive⟩
      · exact hexclusive p (AList.lookup_isSome.mp (by rw [hc]; rfl))
      · rw [hempty, AList.lookup_empty] at hc
        cases hc
      · rcases hlookup p with ⟨hsame, -⟩ | ⟨b', hb', hfile⟩
        · exact ⟨b, hsame.trans hb, rfl⟩
        · refine ⟨b', hb', hagrees (fresh.1, { r with cached := fresh.2.2 }) ?_ p b b' hb hfile⟩
          rw [Region.load]
          simp only [hfresh, Option.map_some]

theorem Exclusive.getChunk (h : r.Exclusive) {p : IVector3} {g : Option (Chunk γ) × Region γ}
    (hget : r.getChunk m loadObject p = some g) :
    Keeps m loadObject r (.getChunk p) g.2 ∧ g.2.Exclusive := by
  rcases getChunk_cases hget with hsame | ⟨pChunk, hloaded, hcached⟩
  · rw [hsame]
    exact ⟨h.keeps_self _, h⟩
  · have hexclusive : g.2.Exclusive := by
      intro q hq
      rw [hloaded, AList.mem_insert] at hq
      rcases hcached with ⟨hcached, hnew⟩ | ⟨hcached, -⟩
      · rw [hcached]
        rcases hq with rfl | hq
        · by_cases hold : q ∈ r.loadedChunks
          · exact h q hold
          · exact hnew hold
        · exact h q hq
      · rw [hcached, AList.mem_erase]
        rintro ⟨hne, hmem⟩
        exact h q (hq.resolve_left hne) hmem
    refine ⟨⟨fun q c hc _ => ?_, fun q c _ hc hgone _ _ => ?_, fun q b hb => ?_⟩, hexclusive⟩
    · exact hexclusive q (AList.lookup_isSome.mp (by rw [hc]; rfl))
    · refine absurd ?_ hgone
      rw [hloaded, AList.mem_insert]
      exact Or.inr (AList.lookup_isSome.mp (by rw [hc]; rfl))
    · have hnew : q ∉ r.loadedChunks := fun hold =>
        h q hold (AList.lookup_isSome.mp (by rw [hb]; rfl))
      rcases hcached with ⟨hcached, -⟩ | ⟨hcached, hhanded⟩
      · exact Or.inl ⟨b, by rw [hcached, hb], rfl⟩
      · by_cases hqp : q = p
        · subst hqp
          obtain ⟨ok, hpreLoad⟩ := hhanded b hb hnew
          exact Or.inr ⟨rfl, hnew, pChunk, ok, hpreLoad, by rw [hloaded, AList.lookup_insert]⟩
        · exact Or.inl ⟨b, by rw [hcached, AList.lookup_erase_ne hqp, hb], rfl⟩

theorem Exclusive.update (h : r.Exclusive) (dt : ℚ) (saveChunk : Chunk γ → Option Marshal) :
    Keeps m loadObject r (.update dt saveChunk) (r.update dt saveChunk) ∧
      (r.update dt saveChunk).Exclusive := by
  have hexclusive : (r.update dt saveChunk).Exclusive := by
    intro p hp
    rw [← AList.lookup_isSome, loadedChunks_update] at hp
    rw [← AList.lookup_eq_none, cached_update]
    cases hc : r.loadedChunks.lookup p with
    | none =>
        rw [hc] at hp
        cases hp
    | some c =>
        rw [hc, Option.bind_some] at hp
        have halive : (c.update dt).isAlive = true := by
          by_contra hdead
          rw [if_neg hdead] at hp
          cases hp
        rw [Option.elim_some, if_pos halive, AList.lookup_eq_none]
        exact h p (AList.lookup_isSome.mp (by rw [hc]; rfl))
  refine ⟨⟨fun p c hc _ => ?_, fun p c pMarshal hc hgone hsaved hvalid => ?_, fun p b hb => ?_⟩,
    hexclusive⟩
  · exact hexclusive p (AList.lookup_isSome.mp (by rw [hc]; rfl))
  · rw [← AList.lookup_eq_none, loadedChunks_update, hc, Option.bind_some] at hgone
    have hdead : ¬(c.update dt).isAlive = true := by
      intro halive
      rw [if_pos halive] at hgone
      cases hgone
    have hsaved' : saveChunk (c.update dt) = some pMarshal := hsaved
    rw [cached_update, hc, Option.elim_some, if_neg hdead, hsaved', filter_valid hvalid,
      Option.some_or]
  · have hnew : p ∉ r.loadedChunks := fun hold =>
      h p hold (AList.lookup_isSome.mp (by rw [hb]; rfl))
    refine Or.inl ⟨b, ?_, rfl⟩
    rw [cached_update, AList.lookup_eq_none.mpr hnew, Option.elim_none, hb]

theorem Exclusive.unload (h : r.Exclusive) (saveChunk : Chunk γ → Option Marshal) :
    Keeps m loadObject r (.unload saveChunk) (r.unload false saveChunk) ∧
      (r.unload false saveChunk).Exclusive := by
  have hempty (p : IVector3) : p ∉ (r.unload false saveChunk).loadedChunks :=
    AList.notMem_empty p
  refine ⟨⟨fun p c hc _ => ?_, fun p c pMarshal hc _ hsaved hvalid => ?_, fun p b hb => ?_⟩,
    fun p hp => absurd hp (hempty p)⟩
  · exact absurd (AList.lookup_isSome.mp (by rw [hc]; rfl)) (hempty p)
  · have hsaved' : saveChunk c = some pMarshal := hsaved
    rw [cached_unload, hc, Option.elim_some, hsaved', filter_valid hvalid, Option.some_or]
  · have hnew : p ∉ r.loadedChunks := fun hold =>
      h p hold (AList.lookup_isSome.mp (by rw [hb]; rfl))
    refine Or.inl ⟨b, ?_, rfl⟩
    rw [cached_unload, AList.lookup_eq_none.mpr hnew, Option.elim_none, hb]

theorem Exclusive.step (h : r.Exclusive) {call : RegionCall γ} {q : Region γ × Unit}
    (hcall : r.LoadsEmpty call ∧ r.Agrees m call) (hq : r.step m loadObject call = some q) :
    Keeps m loadObject r call q.1 ∧ q.1.Exclusive := by
  cases call with
  | load file =>
      obtain ⟨l, hl, rfl⟩ := Option.map_eq_some_iff.mp hq
      exact h.load hcall.1 hcall.2 hl
  | getChunk p =>
      obtain ⟨g, hg, rfl⟩ := Option.map_eq_some_iff.mp hq
      exact h.getChunk hg
  | update dt saveChunk =>
      cases hq
      exact h.update dt saveChunk
  | unload saveChunk =>
      cases hq
      exact h.unload saveChunk
  | save saveChunk =>
      obtain ⟨_, -, rfl⟩ := Option.map_eq_some_iff.mp hq
      exact ⟨h.keeps_self _, h⟩

end

/-- No chunk is held twice or lost, as long as no file replaces cached contents by others. -/
theorem keeps_of_agrees (position : IVector3) (width : ℤ) (calls : List (RegionCall γ))
    (h : Steps.Along (step m loadObject) (fun r call => LoadsEmpty r call ∧ Agrees m r call)
      { position := position, width := width } calls) :
    Steps.Throughout (step m loadObject) (Keeps m loadObject)
      { position := position, width := width } calls :=
  h.throughout (I := Exclusive) (fun _ _ _ hs hcall hr => hs.step hcall hr)
    fun p hp => absurd hp (AList.notMem_empty p)

/-- A file for `keeps_of_agrees_sample` with a blob of twelve bytes for `(1, 1, 1)`. -/
def sampleFile : List UInt8 :=
  [232, 3, 1, 0, 0, 0, 0, 0, 0, 0, 12, 0, 0, 0, 0, 0, 0, 0, 1, 0, 0, 0, 1, 0, 0, 0, 1, 0, 0, 0]

/-- A blob of thirteen bytes for `(1, 1, 1)`. -/
def sampleBlob : Option Marshal :=
  Stream.create ([1, 0, 0, 0, 1, 0, 0, 0, 1, 0, 0, 0, 7].map some) 13

theorem keeps_of_agrees_sample :
    Steps.Throughout (step .lp64 fun s => some (none, s)) (Keeps .lp64 fun s => some (none, s))
      ({ position := ⟨1, 1, 1⟩, width := 2 } : Region Unit)
      [.load (some sampleFile), .getChunk ⟨1, 1, 1⟩, .update 11 fun _ => sampleBlob,
        .getChunk ⟨1, 1, 1⟩] := by
  refine keeps_of_agrees _ _ _ _ _ ⟨⟨rfl, ?_⟩, fun _ _ => ⟨⟨trivial, trivial⟩, fun _ _ =>
    ⟨⟨trivial, trivial⟩, fun _ _ => ⟨⟨trivial, trivial⟩, fun _ _ => trivial⟩⟩⟩⟩
  intro l _ p b b' hb
  cases hb

/-- What a chunk left in the cache is replaced by what the file has for its position. -/
theorem not_keeps_of_load :
    ¬∀ calls : List (RegionCall Unit),
      Steps.Along (step .lp64 fun s => some (none, s)) LoadsEmpty
          { position := ⟨1, 1, 1⟩, width := 2 } calls →
        Steps.Throughout (step .lp64 fun s => some (none, s)) (Keeps .lp64 fun s => some (none, s))
          { position := ⟨1, 1, 1⟩, width := 2 } calls := by
  intro hall
  have hbefore : ((Steps.run (step .lp64 fun s => some (none, s))
      ({ position := ⟨1, 1, 1⟩, width := 2 } : Region Unit)
      [.getChunk ⟨1, 1, 1⟩, .update 11 fun _ => sampleBlob]).map fun r =>
        (r.1.loadedChunks.keys, (r.1.cached.lookup ⟨1, 1, 1⟩).map Stream.contents)) =
      some ([], some ([1, 0, 0, 0, 1, 0, 0, 0, 1, 0, 0, 0, 7].map some)) := by
    decide +kernel
  have hafter : ((Steps.run (step .lp64 fun s => some (none, s))
      ({ position := ⟨1, 1, 1⟩, width := 2 } : Region Unit)
      [.getChunk ⟨1, 1, 1⟩, .update 11 fun _ => sampleBlob]).bind fun r =>
        (step .lp64 (fun s => some (none, s)) r.1 (.load (some sampleFile))).map fun r' =>
          (r'.1.cached.lookup ⟨1, 1, 1⟩).map Stream.contents) =
      some (some ([1, 0, 0, 0, 1, 0, 0, 0, 1, 0, 0, 0].map some)) := by
    decide +kernel
  have halong : Steps.Along (step .lp64 fun s => some (none, s)) LoadsEmpty
      ({ position := ⟨1, 1, 1⟩, width := 2 } : Region Unit)
      ([.getChunk ⟨1, 1, 1⟩, .update 11 fun _ => sampleBlob] ++ [.load (some sampleFile)]) := by
    refine ⟨trivial, fun r hr => ⟨trivial, fun r' hr' => ⟨?_, fun _ _ => trivial⟩⟩⟩
    rw [Steps.run_cons hr, Steps.run_cons hr'] at hbefore
    have hkeys : r'.1.loadedChunks.keys = [] := (Prod.mk.inj (Option.some.inj hbefore)).1
    exact AList.ext (List.map_eq_nil_iff.mp hkeys)
  obtain ⟨r, hr, hblob⟩ := Option.map_eq_some_iff.mp hbefore
  rw [hr, Option.bind_some] at hafter
  obtain ⟨r', hr', hfile⟩ := Option.map_eq_some_iff.mp hafter
  obtain ⟨b, hb, hcontents⟩ := Option.map_eq_some_iff.mp (Prod.mk.inj hblob).2
  have hkeeps := (hall _ halong).last hr hr'
  rcases hkeeps.kept _ b hb with ⟨b', hb', heq⟩ | ⟨hcall, -⟩
  · rw [hb', Option.map_some, Option.some_inj, heq, hcontents] at hfile
    exact absurd hfile (by decide)
  · cases hcall

end Region

end SRCommon
