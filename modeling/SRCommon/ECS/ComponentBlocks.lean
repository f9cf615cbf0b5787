import SRCommon.ECS.Migration
import SRCommon.Types.NumberReads

/-!
# Component blocks

Each component is saved behind its length. A round of the loop ends at the end
of its block unless the loading throws, has gone past the end, or has left too
many bytes; the next block is then taken up at a wrong place.
-/

namespace SRCommon

/-!
## Loading components

`ComponentManager::LoadComponents` and `Load`: a count, and for each component
its length in bytes, the id of its entity, the hash of its name, whether it is
enabled, its version and its data.
-/

structure Component (γ : Type) where
  data : γ
  isEnabled : Bool

inductive ComponentLoadResult where
  | success
  | migrated
  | error
  | fatal
  deriving DecidableEq

/-- The constructor may give a null pointer, and the entity it gives may fail to initialize. A
loader is handed the context as well, which it cannot change. -/
structure MetaComponent (γ : Type) where
  constructor : Option (Component γ)
  loader : Option (Marshal → Option (Component γ) × Marshal)
  version : UInt16

structure ComponentManager (γ : Type) where
  /-- The hash of the atom that is found for a hash. -/
  hashToStringAtom : UInt64 → UInt64
  metadata : UInt64 → Option (MetaComponent γ)
  migration : Migration
  /-- `LoadProperty` of the properties of a component. -/
  loadProperty : Component γ → Marshal → Component γ × Marshal

namespace ComponentManager

variable {γ : Type} (m : ComponentManager γ)

def createComponentOfName (name : UInt64) : Option (Component γ) :=
  (m.metadata name).bind MetaComponent.constructor

def getVersionByName (name : UInt64) : UInt16 := (m.metadata name).elim 0 MetaComponent.version

def loadComponent (name : UInt64) (marshal : Marshal) : Option (Component γ) × Marshal :=
  match m.createComponentOfName name with
  | some pComponent =>
      let loaded := m.loadProperty pComponent marshal
      (some loaded.1, loaded.2)
  | none => (none, marshal)

/-- `loader ? loader(marshal, &m_context) : LoadComponent(m_lastComponent, marshal)`. -/
def loadWith (name : UInt64) (pMetadata : MetaComponent γ) (marshal : Marshal) :
    Option (Component γ) × Marshal :=
  pMetadata.loader.elim (m.loadComponent name marshal) fun loader => loader marshal

/-- What `Load` ends with: `none` where `m_meta.at` throws. -/
def finishLoad (name : UInt64) (enabled : Bool) (result : ComponentLoadResult)
    (marshal : Marshal) : Option ((Option (Component γ) × ComponentLoadResult) × Marshal) :=
  (m.metadata name).map fun pMetadata =>
    match m.loadWith name pMetadata marshal with
    | (some pComponent, marshal) =>
        ((some { pComponent with isEnabled := enabled }, result), marshal)
    | (none, marshal) => ((none, .error), marshal)

/-- `Load` behind its reads. -/
def loadVersion (name : UInt64) (enabled : Bool) (version : UInt16) (marshal : Marshal) :
    Option ((Option (Component γ) × ComponentLoadResult) × Marshal) :=
  let newVersion := m.getVersionByName name
  if version ≠ newVersion then
    match m.metadata name with
    | none => some ((none, .error), marshal)
    | some _ =>
        match m.migration.migrate name marshal version newVersion with
        | (true, marshal) => m.finishLoad name enabled .migrated marshal
        | (false, marshal) => some ((m.createComponentOfName name, .error), marshal)
  else m.finishLoad name enabled .success marshal

def load (marshal : Marshal) :
    Option ((Option (Component γ) × ComponentLoadResult) × Marshal) := do
  let (hash, marshal) ← marshal.readNumber .unsignedLongLong
  let (enabled, marshal) ← marshal.readNumber .unsignedChar
  let (version, marshal) ← marshal.readNumber .unsignedShort
  m.loadVersion (m.hashToStringAtom (UInt64.ofNat hash)) (decide (enabled ≠ 0))
    (UInt16.ofNat version) marshal

/-- What a round does about the bytes of its block that are left. -/
def skipLost (lostBytes : Int64)
    (r : (Option (Component γ) × ComponentLoadResult) × Marshal) :
    Option (Component γ) × Marshal :=
  let ((pComponent, loadResult), marshal) := r
  if lostBytes < 0 ∧ loadResult ≠ .migrated then (pComponent, marshal)
  else if lostBytes > 0 ∧ loadResult ≠ .migrated then
    if lostBytes ≥ 65535 then (pComponent, marshal)
    else (pComponent, marshal.skip lostBytes.toUInt64)
  else (pComponent, marshal)

/-- The difference is computed without a sign. -/
def lostBytes (bytesCount : ℕ) (position pos : UInt64) : Int64 :=
  let readBytes := pos - position
  (UInt64.ofNat bytesCount - readBytes).toInt64

/-- A round of the loop. -/
def loadBlock (marshal : Marshal) : Option (Option (Component γ) × Marshal) := do
  let (bytesCount, marshal) ← marshal.readNumber .unsignedInt
  let position := marshal.pos
  let (_, marshal) ← marshal.readNumber .unsignedLongLong
  let r ← m.load marshal
  some (skipLost (lostBytes bytesCount position r.2.pos) r)

/-- The rounds of the loop, each with the position it starts from. -/
def loadBlocks : ℕ → Marshal → Option (List (UInt64 × Option (Component γ)) × Marshal)
  | 0, marshal => some ([], marshal)
  | count + 1, marshal => do
      let (pComponent, next) ← m.loadBlock marshal
      let (rounds, next) ← loadBlocks count next
      some ((marshal.pos, pComponent) :: rounds, next)

/-- The components that are returned are those of the rounds. -/
def loadComponents (marshal : Marshal) :
    Option (List (UInt64 × Option (Component γ)) × Marshal) := do
  let (componentCount, marshal) ← marshal.readNumber .unsignedShort
  m.loadBlocks componentCount marshal

def returned (rounds : List (UInt64 × Option (Component γ))) : List (Component γ) :=
  rounds.filterMap Prod.snd

end ComponentManager

open LittleEndian

/-- A block behind its length. -/
def framed (block : List UInt8) : List UInt8 := toBytes 4 block.length ++ block

/-- The count and the blocks, as `SaveComponents` writes them. -/
def savedComponents (blocks : List (List UInt8)) : List UInt8 :=
  toBytes 2 blocks.length ++ blocks.flatMap framed

theorem length_savedComponents_le {blocks : List (List UInt8)}
    (hblocks : ∀ bytes ∈ blocks, bytes.length < 2 ^ 32) :
    (savedComponents blocks).length ≤ 2 + blocks.length * 2 ^ 33 := by
  rw [savedComponents, List.length_append, length_toBytes]
  refine Nat.add_le_add_left ?_ 2
  induction blocks with
  | nil => exact Nat.zero_le _
  | cons bytes blocks ih =>
      have hrest := ih fun d hd => hblocks d (List.mem_cons_of_mem _ hd)
      have hbytes := hblocks bytes List.mem_cons_self
      rw [List.flatMap_cons, List.length_append, framed, List.length_append, length_toBytes,
        List.length_cons, Nat.add_mul, Nat.one_mul]
      omega

/-- A block with the position of its length and the bytes behind it. -/
structure PlacedBlock where
  start : ℕ
  bytes : List UInt8
  following : List UInt8

namespace PlacedBlock

def first (b : PlacedBlock) : ℕ := b.start + 4

def stop (b : PlacedBlock) : ℕ := b.first + b.bytes.length

/-- Where the bytes of a block are. -/
structure PlacedIn (b : PlacedBlock) (contents : List UInt8) : Prop where
  drop_start : contents.drop b.start = framed b.bytes ++ b.following
  start_le : b.start ≤ contents.length
  length_lt : b.bytes.length < 2 ^ 32

theorem PlacedIn.drop_first {b : PlacedBlock} {contents : List UInt8} (h : b.PlacedIn contents) :
    contents.drop b.first = b.bytes ++ b.following := by
  rw [first, ← List.drop_drop, h.drop_start, framed, List.append_assoc]
  exact List.drop_left' (length_toBytes 4 _)

theorem PlacedIn.stop_le {b : PlacedBlock} {contents : List UInt8} (h : b.PlacedIn contents) :
    b.stop ≤ contents.length := by
  have hlength := congrArg List.length h.drop_start
  have hstart := h.start_le
  rw [List.length_drop, List.length_append, framed, List.length_append, length_toBytes] at hlength
  rw [stop, first]
  omega

theorem PlacedIn.first_le {b : PlacedBlock} {contents : List UInt8} (h : b.PlacedIn contents) :
    b.first ≤ contents.length := (Nat.le_add_right _ _).trans h.stop_le

end PlacedBlock

/-- Blocks one after the other from a position on. -/
def placed (after : List UInt8) : ℕ → List (List UInt8) → List PlacedBlock
  | _, [] => []
  | start, bytes :: blocks =>
      let b : PlacedBlock := ⟨start, bytes, blocks.flatMap framed ++ after⟩
      b :: placed after b.stop blocks

/-- What the fixed fields are read as, and how many bytes that takes. -/
structure BlockHeader where
  name : UInt64
  isEnabled : Bool
  version : UInt16
  length : ℕ

namespace ComponentManager

section

variable {γ : Type} (m : ComponentManager γ) (s : Marshal) (b : PlacedBlock)

/-- The hash, the flag and the version, behind so many bytes. -/
def fieldsAhead (skipped : ℕ) (ahead : List UInt8) : BlockHeader :=
  let hash := numberAhead 8 ahead
  let enabled := numberAhead 1 (ahead.drop hash.2)
  let version := numberAhead 2 (ahead.drop (hash.2 + enabled.2))
  { name := m.hashToStringAtom (UInt64.ofNat hash.1)
    isEnabled := decide (enabled.1 ≠ 0)
    version := UInt16.ofNat version.1
    length := skipped + (hash.2 + enabled.2 + version.2) }

/-- The fields of a block, the id of the entity first. -/
def header : BlockHeader :=
  let ahead := b.bytes ++ b.following
  let entityId := numberAhead 8 ahead
  m.fieldsAhead entityId.2 (ahead.drop entityId.2)

/-- What the loader makes of a block when it is started behind its fields. -/
def loaded (pMetadata : MetaComponent γ) : Option (Component γ) × Marshal :=
  m.loadWith (m.header b).name pMetadata (s.seek (b.first + (m.header b).length))

/-- The component of a block that loads successfully. -/
def component : Option (Component γ) :=
  (m.metadata (m.header b).name).bind fun pMetadata =>
    (m.loaded s b pMetadata).1.map fun pComponent =>
      { pComponent with isEnabled := (m.header b).isEnabled }

/-- Loaders read on, and read only. -/
def LoadersRead (contents : List UInt8) : Prop :=
  ∀ name pMetadata p, m.metadata name = some pMetadata → p ≤ contents.length →
    ∃ q, p ≤ q ∧ q ≤ contents.length ∧ (m.loadWith name pMetadata (s.seek p)).2 = s.seek q

/-- The loader of a block reads at most the block, which is not migrated. -/
def Contained : Prop :=
  ∀ pMetadata, m.metadata (m.header b).name = some pMetadata →
    (m.header b).version = pMetadata.version ∧
      ((m.header b).length ≤ b.bytes.length → (m.loaded s b pMetadata).2.pos.toNat ≤ b.stop)

/-- The fields are inside the block, an unknown component has a version, and fewer than 65535 bytes
of the block are left when the loading is over. -/
def Recovers : Prop :=
  (m.header b).length ≤ b.bytes.length ∧
    match m.metadata (m.header b).name with
    | none => (m.header b).version ≠ 0 ∧ b.bytes.length < (m.header b).length + 65535
    | some pMetadata => b.stop < (m.loaded s b pMetadata).2.pos.toNat + 65535

/-- Every block is taken up where it starts, its component is returned when it loads, and the end is
behind the last block. -/
def Undamaged (start : ℕ) (blocks : List PlacedBlock) (stop : ℕ) : Prop :=
  ∃ rounds marshal, m.loadComponents (s.seek start) = some (rounds, marshal) ∧
    marshal.pos.toNat = stop ∧ rounds.map (fun r => r.1.toNat) = blocks.map PlacedBlock.start ∧
      returned rounds = blocks.filterMap (m.component s)

end

/-- The difference is the one of the integers. -/
theorem toInt_lostBytes {first n q : ℕ} (hn : n < 2 ^ 32) (hfirst : first ≤ q) (hq : q < 2 ^ 63) :
    (lostBytes n (UInt64.ofNat first) (UInt64.ofNat q)).toInt = (first + n : ℤ) - q := by
  have heq : lostBytes n (UInt64.ofNat first) (UInt64.ofNat q) =
      Int64.ofInt ((first + n : ℤ) - q) := by
    rw [lostBytes, UInt64.toInt64_sub, UInt64.toInt64_sub, UInt64.toInt64_ofNat',
      UInt64.toInt64_ofNat', UInt64.toInt64_ofNat', ← Int64.ofInt_eq_ofNat, ← Int64.ofInt_eq_ofNat,
      ← Int64.ofInt_eq_ofNat, ← Int64.ofInt_sub, ← Int64.ofInt_sub]
    congr 1
    omega
  rw [heq, Int64.toInt_ofInt_of_le (by omega) (by omega)]

section

variable {γ : Type} {m : ComponentManager γ} {s : Marshal} {contents : List UInt8} {p skipped : ℕ}

theorem fieldsAhead_length_le (skipped : ℕ) (ahead : List UInt8) :
    (m.fieldsAhead skipped ahead).length ≤ skipped + ahead.length := by
  have hhash := numberAhead_le 8 ahead
  have henabled := numberAhead_le 1 (ahead.drop (numberAhead 8 ahead).2)
  have hversion := numberAhead_le 2
    (ahead.drop ((numberAhead 8 ahead).2 + (numberAhead 1 (ahead.drop (numberAhead 8 ahead).2)).2))
  rw [List.length_drop] at henabled hversion
  rw [fieldsAhead]
  dsimp only
  omega

/-- The reads that `Load` begins with. -/
theorem load_eq (h : Stream.Carries s contents) (hroom : contents.length < 2 ^ 63)
    (hp : p + skipped ≤ contents.length) :
    m.load (s.seek (p + skipped)) =
      let fields := m.fieldsAhead skipped (contents.drop (p + skipped))
      m.loadVersion fields.name fields.isEnabled fields.version (s.seek (p + fields.length)) := by
  have hhash := numberAhead_le 8 (contents.drop (p + skipped))
  have henabled := numberAhead_le 1
    (contents.drop (p + skipped + (numberAhead 8 (contents.drop (p + skipped))).2))
  rw [List.length_drop] at hhash henabled
  rw [load, h.readNumber (n := 8) hroom hp (by decide) rfl, Option.bind_eq_bind, Option.bind_some]
  dsimp only
  rw [h.readNumber (n := 1) hroom (by omega) (by decide) rfl, Option.bind_some]
  dsimp only
  rw [h.readNumber (n := 2) hroom (by omega) (by decide) rfl, Option.bind_some]
  simp only [fieldsAhead, List.drop_drop, Nat.add_assoc]

end

section

variable {γ : Type} {m : ComponentManager γ} {s : Marshal} {contents : List UInt8} {b : PlacedBlock}

/-- A round skips what is left of its block, if that is not too much. -/
theorem skipLost_eq (h : Stream.Carries s contents) (hroom : contents.length < 2 ^ 63)
    (hb : b.PlacedIn contents) {q : ℕ} (hfirst : b.first ≤ q) (hq : q ≤ contents.length)
    (pComponent : Option (Component γ)) {result : ComponentLoadResult}
    (hresult : result ≠ .migrated) :
    skipLost (lostBytes b.bytes.length (UInt64.ofNat b.first) (s.seek q).pos)
        ((pComponent, result), s.seek q) =
      (pComponent, s.seek (if q ≤ b.stop ∧ b.stop < q + 65535 then b.stop else q)) := by
  have hstop := hb.stop_le
  have hlost := toInt_lostBytes hb.length_lt hfirst (hq.trans_lt hroom)
  have hdef : b.stop = b.first + b.bytes.length := rfl
  have hzero : (0 : Int64).toInt = 0 := rfl
  have hmax : (65535 : Int64).toInt = 65535 := rfl
  change (lostBytes b.bytes.length (UInt64.ofNat b.first) (s.seek q).pos).toInt = _ at hlost
  generalize lostBytes b.bytes.length (UInt64.ofNat b.first) (s.seek q).pos = lost at hlost
  simp only [skipLost, Int64.lt_iff_toInt_lt, ge_iff_le, gt_iff_lt, Int64.le_iff_toInt_le, hzero,
    hmax, hlost, hresult, ne_eq, not_false_eq_true, and_true]
  split
  · rw [if_neg (by omega)]
  split
  · split
    · rw [if_neg (by omega)]
    · have hcount : lost.toUInt64.toNat = b.stop - q := by
        rw [Int64.toNat_toUInt64_of_le (by rw [Int64.le_iff_toInt_le, hzero, hlost]; omega)]
        change lost.toInt.toNat = _
        rw [hlost]
        omega
      have hskip : (s.seek q).skip lost.toUInt64 = s.seek b.stop := by
        rw [h.skip_seek (by omega), hcount]
        congr 1
        omega
      rw [if_pos (by omega), hskip]
  · split
    · congr 2
      omega
    · rfl

/-- A round behind its reads. -/
theorem loadBlock_eq (h : Stream.Carries s contents) (hroom : contents.length < 2 ^ 63)
    (hb : b.PlacedIn contents) :
    m.loadBlock (s.seek b.start) =
      (m.loadVersion (m.header b).name (m.header b).isEnabled (m.header b).version
        (s.seek (b.first + (m.header b).length))).map fun r =>
          skipLost (lostBytes b.bytes.length (UInt64.ofNat b.first) r.2.pos) r := by
  have hfirst := hb.drop_first
  have hfirst_le := hb.first_le
  have hid := numberAhead_le 8 (contents.drop b.first)
  rw [List.length_drop] at hid
  have hcount : numberAhead 4 (contents.drop b.start) = (b.bytes.length, 4) := by
    rw [hb.drop_start, framed, List.append_assoc, numberAhead_append (length_toBytes 4 _),
      ofBytes_toBytes hb.length_lt]
  have hload := load_eq (m := m) h hroom
    (show b.first + (numberAhead 8 (contents.drop b.first)).2 ≤ contents.length by omega)
  rw [← List.drop_drop, hfirst] at hload
  have hnext : b.start + 4 = b.first := rfl
  rw [loadBlock, h.readNumber (n := 4) hroom hb.start_le (by decide) rfl, hcount,
    Option.bind_eq_bind, Option.bind_some]
  dsimp only
  rw [hnext, h.readNumber (n := 8) hroom hb.first_le (by decide) rfl, Option.bind_some, hfirst]
  dsimp only
  rw [hload, Option.map_eq_bind]
  rfl

/-- A round throws, or ends behind its block exactly when it recovers. -/
theorem loadBlock_cases (h : Stream.Carries s contents) (hroom : contents.length < 2 ^ 63)
    (hb : b.PlacedIn contents) (hread : m.LoadersRead s contents) (hcontained : m.Contained s b) :
    (m.loadBlock (s.seek b.start) = none ∧ ¬ m.Recovers s b) ∨
      ∃ q, q ≤ contents.length ∧
        m.loadBlock (s.seek b.start) = some (m.component s b, s.seek q) ∧
          (q = b.stop ↔ m.Recovers s b) := by
  have hstop : b.stop = b.first + b.bytes.length := rfl
  have hstop_le := hb.stop_le
  have hfields : b.first + (m.header b).length ≤ contents.length := by
    have hid := numberAhead_le 8 (b.bytes ++ b.following)
    have hlength := m.fieldsAhead_length_le (numberAhead 8 (b.bytes ++ b.following)).2
      ((b.bytes ++ b.following).drop (numberAhead 8 (b.bytes ++ b.following)).2)
    have hfirst := congrArg List.length hb.drop_first
    have hfirst_le := hb.first_le
    rw [List.length_drop] at hfirst hlength
    change (m.header b).length ≤ _ at hlength
    omega
  rw [loadBlock_eq h hroom hb, loadVersion, Recovers]
  cases hmetadata : m.metadata (m.header b).name with
  | none =>
      have hknown : m.getVersionByName (m.header b).name = 0 := by
        rw [getVersionByName, hmetadata]
        rfl
      rw [hknown]
      have hcomponent : m.component s b = none := by rw [component, hmetadata, Option.bind_none]
      by_cases hversion : (m.header b).version = 0
      · refine .inl ⟨?_, fun hrecovers => hrecovers.2.1 hversion⟩
        rw [if_neg (not_not_intro hversion), finishLoad, hmetadata]
        rfl
      · right
        rw [if_pos hversion, hcomponent, Option.map_some, skipLost_eq h hroom hb
          (Nat.le_add_right _ _) hfields none (by decide)]
        refine ⟨_, ?_, rfl, ?_⟩
        · split <;> omega
        · change _ ↔ _ ∧ _ ≠ _ ∧ _
          split
          · exact iff_of_true rfl ⟨by omega, hversion, by omega⟩
          · exact iff_of_false (by omega) fun hrecovers => by
              obtain ⟨hinside, -, hleft⟩ := hrecovers
              omega
  | some pMetadata =>
      have hknown : m.getVersionByName (m.header b).name = pMetadata.version := by
        rw [getVersionByName, hmetadata]
        rfl
      rw [hknown]
      obtain ⟨hversion, hinside⟩ := hcontained pMetadata hmetadata
      obtain ⟨q, hq, hqle, hmarshal⟩ := hread _ pMetadata _ hmetadata hfields
      change (m.loaded s b pMetadata).2 = s.seek q at hmarshal
      rw [hmarshal, h.toNat_pos_seek hqle] at hinside
      have hends : m.finishLoad (m.header b).name (m.header b).isEnabled .success
          (s.seek (b.first + (m.header b).length)) = some ((m.component s b,
            if (m.component s b).isSome then .success else .error), s.seek q) := by
        rw [finishLoad, hmetadata, component, hmetadata, ← hmarshal, Option.bind_some,
          Option.map_some]
        rw [show m.loadWith (m.header b).name pMetadata _ = m.loaded s b pMetadata from rfl]
        rcases m.loaded s b pMetadata with ⟨_ | pComponent, marshal⟩ <;> rfl
      have hresult : (if (m.component s b).isSome then ComponentLoadResult.success else .error) ≠
          .migrated := by
        split <;> decide
      right
      rw [if_neg (not_not_intro hversion), hends, Option.map_some, skipLost_eq h hroom hb
        (by omega) hqle _ hresult]
      refine ⟨_, ?_, rfl, ?_⟩
      · split <;> omega
      · dsimp only
        rw [hmarshal, h.toNat_pos_seek hqle]
        split <;> omega

/-- The first of several blocks, and the others behind it. -/
theorem placedIn_cons {after bytes : List UInt8} {start : ℕ} {blocks : List (List UInt8)}
    (hdrop : contents.drop start = (bytes :: blocks).flatMap framed ++ after)
    (hstart : start ≤ contents.length) (hbytes : bytes.length < 2 ^ 32) :
    let b : PlacedBlock := ⟨start, bytes, blocks.flatMap framed ++ after⟩
    b.PlacedIn contents ∧ contents.drop b.stop = blocks.flatMap framed ++ after ∧
      start + ((bytes :: blocks).flatMap framed).length =
        b.stop + (blocks.flatMap framed).length := by
  intro b
  have hb : b.PlacedIn contents := by
    refine ⟨?_, hstart, hbytes⟩
    rw [hdrop, List.flatMap_cons, List.append_assoc]
  refine ⟨hb, ?_, ?_⟩
  · rw [PlacedBlock.stop, ← List.drop_drop, hb.drop_first]
    exact List.drop_left
  · change start + _ = start + 4 + bytes.length + _
    rw [List.flatMap_cons, List.length_append, framed, List.length_append, length_toBytes]
    omega

/-- Rounds that start at the blocks and end behind the last of them have all recovered. -/
theorem recovers_of_loadBlocks (h : Stream.Carries s contents) (hroom : contents.length < 2 ^ 63)
    (hread : m.LoadersRead s contents) {after : List UInt8} {start : ℕ} {blocks : List (List UInt8)}
    (hdrop : contents.drop start = blocks.flatMap framed ++ after)
    (hstart : start ≤ contents.length) (hblocks : ∀ bytes ∈ blocks, bytes.length < 2 ^ 32)
    (hcontained : ∀ b ∈ placed after start blocks, m.Contained s b)
    {rounds : List (UInt64 × Option (Component γ))} {marshal : Marshal}
    (hrun : m.loadBlocks blocks.length (s.seek start) = some (rounds, marshal))
    (hstop : marshal.pos.toNat = start + (blocks.flatMap framed).length)
    (hstarts : rounds.map (fun r => r.1.toNat) =
      (placed after start blocks).map PlacedBlock.start) :
    ∀ b ∈ placed after start blocks, m.Recovers s b := by
  induction blocks generalizing start rounds with
  | nil => simp [placed]
  | cons bytes blocks ih =>
      obtain ⟨hb, hdrop', hlength⟩ := placedIn_cons hdrop hstart (hblocks bytes List.mem_cons_self)
      rw [hlength] at hstop
      obtain ⟨⟨pComponent, next⟩, hblock, hrun⟩ := Option.bind_eq_some_iff.mp hrun
      obtain ⟨⟨rest, last⟩, hrest, hrun⟩ := Option.bind_eq_some_iff.mp hrun
      cases hrun
      obtain ⟨hnone, -⟩ | ⟨q, hq, hsome, hends⟩ :=
        loadBlock_cases h hroom hb hread (hcontained _ List.mem_cons_self)
      · cases hnone.symm.trans hblock
      cases hsome.symm.trans hblock
      obtain ⟨-, hstarts⟩ := List.cons_eq_cons.mp hstarts
      -- the position after the round is read off the next round, or off the end
      have hqstop : q = (PlacedBlock.mk start bytes (blocks.flatMap framed ++ after)).stop := by
        cases blocks with
        | nil =>
            cases hrest
            rw [h.toNat_pos_seek hq] at hstop
            exact hstop
        | cons bytes' blocks =>
            obtain ⟨⟨pComponent', next'⟩, -, hrest⟩ := Option.bind_eq_some_iff.mp hrest
            obtain ⟨⟨rest', last'⟩, -, hrest⟩ := Option.bind_eq_some_iff.mp hrest
            cases hrest
            rw [← h.toNat_pos_seek hq]
            exact (List.cons_eq_cons.mp hstarts).1
      subst hqstop
      refine List.forall_mem_cons.mpr ⟨hends.mp rfl, ?_⟩
      exact ih hdrop' hb.stop_le (fun d hd => hblocks d (List.mem_cons_of_mem _ hd))
        (fun d hd => hcontained d (List.mem_cons_of_mem _ hd)) hrest hstop hstarts

theorem loadBlocks_of_recovers (h : Stream.Carries s contents) (hroom : contents.length < 2 ^ 63)
    (hread : m.LoadersRead s contents) {after : List UInt8} {start : ℕ} {blocks : List (List UInt8)}
    (hdrop : contents.drop start = blocks.flatMap framed ++ after)
    (hstart : start ≤ contents.length) (hblocks : ∀ bytes ∈ blocks, bytes.length < 2 ^ 32)
    (hcontained : ∀ b ∈ placed after start blocks, m.Contained s b)
    (hrecovers : ∀ b ∈ placed after start blocks, m.Recovers s b) :
    ∃ rounds, m.loadBlocks blocks.length (s.seek start) =
        some (rounds, s.seek (start + (blocks.flatMap framed).length)) ∧
      rounds.map (fun r => (r.1.toNat, r.2)) =
        (placed after start blocks).map fun b => (b.start, m.component s b) := by
  induction blocks generalizing start with
  | nil => exact ⟨[], rfl, rfl⟩
  | cons bytes blocks ih =>
      obtain ⟨hb, hdrop', hlength⟩ := placedIn_cons hdrop hstart (hblocks bytes List.mem_cons_self)
      obtain ⟨hrecovers, hrest⟩ := List.forall_mem_cons.mp hrecovers
      obtain ⟨-, hnot⟩ | ⟨q, -, hsome, hends⟩ :=
        loadBlock_cases h hroom hb hread (hcontained _ List.mem_cons_self)
      · exact absurd hrecovers hnot
      cases hends.mpr hrecovers
      obtain ⟨rounds, hrun, hrounds⟩ := ih hdrop' hb.stop_le
        (fun d hd => hblocks d (List.mem_cons_of_mem _ hd))
        (fun d hd => hcontained d (List.mem_cons_of_mem _ hd)) hrest
      refine ⟨((s.seek start).pos, m.component s ⟨start, bytes, blocks.flatMap framed ++ after⟩) ::
        rounds, ?_, congrArg₂ List.cons ?_ hrounds⟩
      · rw [List.length_cons, loadBlocks, hsome, Option.bind_eq_bind, Option.bind_some, hlength]
        dsimp only
        rw [hrun]
        rfl
      · exact congrArg (·, _) (h.toNat_pos_seek hstart)

theorem loadComponents_eq {before after : List UInt8} {blocks : List (List UInt8)}
    (h : Stream.Carries s (before ++ (savedComponents blocks ++ after)))
    (hroom : (before ++ (savedComponents blocks ++ after)).length < 2 ^ 63)
    (hcount : blocks.length < 2 ^ 16) :
    m.loadComponents (s.seek before.length) =
      m.loadBlocks blocks.length (s.seek (before.length + 2)) := by
  rw [loadComponents, h.readNumber (n := 2) hroom (by simp) (by decide) rfl, List.drop_left,
    savedComponents, List.append_assoc, numberAhead_append (length_toBytes 2 _),
    ofBytes_toBytes hcount]
  rfl

theorem drop_savedComponents (before after : List UInt8) (blocks : List (List UInt8)) :
    (before ++ (savedComponents blocks ++ after)).drop (before.length + 2) =
      blocks.flatMap framed ++ after := by
  rw [← List.drop_drop, List.drop_left, savedComponents, List.append_assoc]
  exact List.drop_left' (length_toBytes 2 _)

/-- The blocks are loaded as they should be exactly when every one of them recovers, whatever
stands before and behind them. -/
theorem undamaged_iff {before after : List UInt8} {blocks : List (List UInt8)}
    (h : Stream.Carries s (before ++ (savedComponents blocks ++ after)))
    (hroom : before.length + after.length < 2 ^ 62)
    (hcount : blocks.length < 2 ^ 16) (hblocks : ∀ bytes ∈ blocks, bytes.length < 2 ^ 32)
    (hread : m.LoadersRead s (before ++ (savedComponents blocks ++ after)))
    (hcontained : ∀ b ∈ placed after (before.length + 2) blocks, m.Contained s b) :
    m.Undamaged s before.length (placed after (before.length + 2) blocks)
        (before.length + 2 + (blocks.flatMap framed).length) ↔
      ∀ b ∈ placed after (before.length + 2) blocks, m.Recovers s b := by
  have hsaved := length_savedComponents_le hblocks
  have hlength : (before ++ (savedComponents blocks ++ after)).length < 2 ^ 63 := by
    rw [List.length_append, List.length_append]
    omega
  have hstart : before.length + 2 + (blocks.flatMap framed).length ≤
      (before ++ (savedComponents blocks ++ after)).length := by
    simp only [savedComponents, List.length_append, length_toBytes]
    omega
  rw [Undamaged, loadComponents_eq h hlength hcount]
  constructor
  · rintro ⟨rounds, marshal, hrun, hstop, hstarts, -⟩
    exact recovers_of_loadBlocks h hlength hread (drop_savedComponents ..) (by omega) hblocks
      hcontained hrun hstop hstarts
  · intro hrecovers
    obtain ⟨rounds, hrun, hrounds⟩ := loadBlocks_of_recovers h hlength hread
      (drop_savedComponents ..) (by omega) hblocks hcontained hrecovers
    refine ⟨rounds, _, hrun, h.toNat_pos_seek hstart, ?_, ?_⟩
    · have hstarts := congrArg (List.map Prod.fst) hrounds
      rw [List.map_map, List.map_map] at hstarts
      exact hstarts
    · have hcomponents := congrArg (List.filterMap Prod.snd) hrounds
      rw [List.filterMap_map, List.filterMap_map] at hcomponents
      exact hcomponents

end

/-- A component as `SaveLegacy` writes it. -/
def savedComponent (entityId name enabled version : ℕ) (payload : List UInt8) : List UInt8 :=
  toBytes 8 entityId ++ (toBytes 8 name ++ (toBytes 1 enabled ++ (toBytes 2 version ++ payload)))

theorem header_savedComponent {γ : Type} (m : ComponentManager γ) {start entityId name enabled
    version : ℕ} (hname : name < 2 ^ 64) (henabled : enabled < 2 ^ 8) (hversion : version < 2 ^ 16)
    (payload following : List UInt8) :
    m.header ⟨start, savedComponent entityId name enabled version payload, following⟩ =
      ⟨m.hashToStringAtom (UInt64.ofNat name), decide (enabled ≠ 0), UInt16.ofNat version, 19⟩ := by
  have hdrop : ∀ (n x : ℕ) (rest : List UInt8), (toBytes n x ++ rest).drop n = rest :=
    fun n x rest => List.drop_left' (length_toBytes n x)
  have hhash : ofBytes (toBytes 8 name) = name := ofBytes_toBytes hname
  have hflag : ofBytes (toBytes 1 enabled) = enabled := ofBytes_toBytes henabled
  have hnumber : ofBytes (toBytes 2 version) = version := ofBytes_toBytes hversion
  simp only [header, fieldsAhead, savedComponent, List.append_assoc, ← List.drop_drop,
    numberAhead_append (length_toBytes _ _), hdrop, hhash, hflag, hnumber]

/-- One component is registered, under the hash 7; its loader reads a number. -/
def registering : ComponentManager ℕ where
  hashToStringAtom hash := hash
  metadata name := if name = 7 then
      some ⟨none, some fun marshal => match marshal.readNumber .unsignedShort with
        | some (number, marshal) => (some ⟨number, true⟩, marshal)
        | none => (none, marshal), 1⟩
    else none
  migration _ := none
  loadProperty pComponent marshal := (pComponent, marshal)

theorem registering_loadersRead {s : Marshal} {contents : List UInt8}
    (h : Stream.Carries s contents) (hroom : contents.length < 2 ^ 63) :
    registering.LoadersRead s contents := by
  intro name pMetadata p hmetadata hp
  rw [registering] at hmetadata
  dsimp only at hmetadata
  split at hmetadata
  · cases hmetadata
    have hle := numberAhead_le 2 (contents.drop p)
    rw [List.length_drop] at hle
    refine ⟨p + (numberAhead 2 (contents.drop p)).2, Nat.le_add_right _ _, by omega, ?_⟩
    rw [loadWith, Option.elim_some]
    dsimp only
    rw [h.readNumber (n := 2) hroom hp (by decide) rfl]
  · cases hmetadata

/-- The known component leaves a byte of its block, and an unknown one all of its data. -/
def mixedBlocks : List (List UInt8) :=
  [savedComponent 1 7 1 1 [5, 0, 9], savedComponent 2 9 1 3 [1, 2, 3]]

theorem registering_loaded {s : Marshal} (h : Stream.Carries s (savedComponents mixedBlocks))
    {pMetadata : MetaComponent ℕ} (hmetadata : registering.metadata 7 = some pMetadata) :
    (registering.loadWith 7 pMetadata (Stream.seek s 25)).2.pos.toNat = 27 := by
  cases hmetadata
  rw [loadWith, Option.elim_some]
  dsimp only
  rw [h.readNumber (n := 2) (by decide) (by decide) (by decide) rfl]
  exact h.toNat_pos_seek (by decide)

theorem undamaged_iff_sample :
    ∃ s : Marshal, Stream.Carries s (savedComponents mixedBlocks) ∧
      (registering.Undamaged s 0 (placed [] 2 mixedBlocks) 54 ↔
        ∀ b ∈ placed [] 2 mixedBlocks, registering.Recovers s b) ∧
      ∀ b ∈ placed [] 2 mixedBlocks, registering.Recovers s b := by
  have hcount : (54 : UInt64).toNat = (savedComponents mixedBlocks).length := by decide
  obtain ⟨s, -, h⟩ := Stream.carries_create hcount
    (List.take_of_length_le (by rw [List.length_map]))
  have happend : savedComponents mixedBlocks = [] ++ (savedComponents mixedBlocks ++ []) := by
    rw [List.nil_append, List.append_nil]
  have hcarries : Stream.Carries s ([] ++ (savedComponents mixedBlocks ++ [])) := by rwa [← happend]
  have hiff := undamaged_iff (m := registering) hcarries (by decide) (by decide) (by decide)
  refine ⟨s, h, hiff ?_ ?_, ?_⟩
  · rw [← happend]
    exact registering_loadersRead h (by decide)
  · intro b hb pMetadata hmetadata
    rcases List.mem_cons.mp hb with rfl | hb
    · refine ⟨?_, fun _ => ?_⟩
      · cases hmetadata
        rfl
      · exact (registering_loaded h hmetadata).trans_le (by decide)
    · cases List.mem_singleton.mp hb
      cases hmetadata
  · intro b hb
    rcases List.mem_cons.mp hb with rfl | hb
    · refine ⟨by decide, ?_⟩
      exact (by decide : 28 < 27 + 65535).trans_eq
        (congrArg (· + 65535) (registering_loaded h rfl).symm)
    · cases List.mem_singleton.mp hb
      exact ⟨by decide, by decide, by decide⟩

/-- Nothing is registered. -/
def bare : ComponentManager Unit where
  hashToStringAtom hash := hash
  metadata _ := none
  migration _ := none
  loadProperty pComponent marshal := (pComponent, marshal)

theorem not_undamaged_of_bare {bytes : List UInt8} (hbytes : bytes.length < 2 ^ 32)
    (hrecovers : ∀ s, ¬ bare.Recovers s ⟨2, bytes, []⟩) :
    ∃ s : Marshal, Stream.Carries s (savedComponents [bytes]) ∧
      ¬ bare.Undamaged s 0 (placed [] 2 [bytes]) (2 + ([bytes].flatMap framed).length) := by
  have hblocks : ∀ block ∈ [bytes], block.length < 2 ^ 32 := by simpa using hbytes
  have hlength := length_savedComponents_le hblocks
  rw [List.length_singleton] at hlength
  have hcount : (UInt64.ofNat (savedComponents [bytes]).length).toNat =
      (savedComponents [bytes]).length := UInt64.toNat_ofNat_of_lt' (by change _ < 2 ^ 64; omega)
  obtain ⟨s, -, h⟩ := Stream.carries_create hcount
    (List.take_of_length_le (by rw [List.length_map]))
  have happend : savedComponents [bytes] = [] ++ (savedComponents [bytes] ++ []) := by
    rw [List.nil_append, List.append_nil]
  refine ⟨s, h, fun hundamaged => ?_⟩
  obtain ⟨rounds, marshal, hrun, hstop, hstarts, -⟩ := hundamaged
  rw [happend] at h hlength
  have hsize : ([] ++ (savedComponents [bytes] ++ []) : List UInt8).length < 2 ^ 63 := by omega
  have heq := loadComponents_eq (m := bare) h hsize (by rw [List.length_singleton]; decide)
  change bare.loadComponents (Stream.seek s 0) = bare.loadBlocks 1 (Stream.seek s 2) at heq
  have hdrop := drop_savedComponents [] [] [bytes]
  have hcovered : 2 ≤ ([] ++ (savedComponents [bytes] ++ []) : List UInt8).length := by
    simp [savedComponents]
  refine hrecovers s (recovers_of_loadBlocks h hsize (fun _ _ _ hmetadata => by cases hmetadata)
    hdrop hcovered hblocks (fun _ _ _ hmetadata => by cases hmetadata)
    (heq ▸ hrun) hstop hstarts _ List.mem_cons_self)

/-- A component of an unknown class without a version makes the loading throw, and one that is
65535 bytes long behind its version is not skipped. -/
theorem not_undamaged_of_unknown :
    (∃ s : Marshal, Stream.Carries s (savedComponents [savedComponent 1 9 1 0 []]) ∧
      ¬ bare.Undamaged s 0 (placed [] 2 [savedComponent 1 9 1 0 []])
        (2 + ([savedComponent 1 9 1 0 []].flatMap framed).length)) ∧
    ∃ s : Marshal,
      Stream.Carries s (savedComponents [savedComponent 1 9 1 1 (List.replicate 65535 0)]) ∧
      ¬ bare.Undamaged s 0 (placed [] 2 [savedComponent 1 9 1 1 (List.replicate 65535 0)])
        (2 + ([savedComponent 1 9 1 1 (List.replicate 65535 0)].flatMap framed).length) := by
  constructor
  · refine not_undamaged_of_bare (by decide) fun s hrecovers => ?_
    exact hrecovers.2.1 (by rw [header_savedComponent bare] <;> decide)
  · have hlength : (savedComponent 1 9 1 1 (List.replicate 65535 0)).length = 19 + 65535 := by
      simp only [savedComponent, List.length_append, length_toBytes, List.length_replicate]
    refine not_undamaged_of_bare (by rw [hlength]; decide) fun s hrecovers => ?_
    have hleft := hrecovers.2.2
    rw [header_savedComponent bare (by decide) (by decide) (by decide)] at hleft
    exact absurd (hlength.symm.trans_lt hleft) (Nat.lt_irrefl _)

end ComponentManager

end SRCommon
