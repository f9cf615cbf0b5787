import SRCommon.Lib.PartialRun
import SRCommon.Lib.References

/-!
# SafePtr

The handles of one thread. `AutoFree` holds a copy of its handle while the function
runs that frees the object, and that function may work with handles itself. What
touches a block that is gone has no meaning.
-/

namespace SRCommon

structure SafePtrDynamicData where
  lock : Bool := false
  lockCount : UInt32 := 0
  useCount : UInt32 := 1
  valid : Bool
  /-- Whether `m_owner` is the thread. -/
  owned : Bool := false
  deriving DecidableEq

namespace SafePtrDynamicData

variable (d : SafePtrDynamicData)

/-- A lock that another owner holds is waited for forever. -/
def recursiveLock : Option SafePtrDynamicData :=
  if d.owned then some { d with lockCount := d.lockCount + 1 }
  else if d.lock then none
  else some { d with lock := true, owned := true, lockCount := 1 }

def unlock : SafePtrDynamicData :=
  if 1 < d.lockCount then { d with lockCount := d.lockCount - 1 }
  else if d.lockCount ≠ 0 then { d with owned := false, lockCount := 0, lock := false }
  else d

end SafePtrDynamicData

structure SafePtr (ω : Type) where
  data : Option ℕ := none
  ptr : Option ω := none
  deriving DecidableEq

structure SafePtrs (η ω : Type) where
  handle : η → Option (SafePtr ω) := fun _ => none
  block : ℕ → Option SafePtrDynamicData := fun _ => none
  nextBlock : ℕ := 0
  /-- The pointers that the blocks were created for. -/
  createdFor : ℕ → Option ω := fun _ => none
  /-- The objects that `AutoFree` has released. -/
  released : ω → Bool := fun _ => false
  /-- The copies of the calls of `AutoFree` that wait for their functions, the last one first. -/
  freeing : List η := []

inductive SafePtrCall (η ω : Type) where
  | construct (h : η) (ptr : Option ω)
  | default (h : η)
  | copy (h g : η)
  | copyAssign (h g : η)
  /-- `AutoFree` of a handle up to the call of the function, with the copy that it makes. -/
  | autoFree (copy h : η)
  /-- The function of the last `AutoFree` returns. -/
  | freed
  | destroy (h : η)

namespace SafePtrs

variable {η ω : Type} [DecidableEq η] [DecidableEq ω] (s : SafePtrs η ω)

def setHandle (h : η) (p : Option (SafePtr ω)) : SafePtrs η ω :=
  { s with handle := Function.update s.handle h p }

def setBlock (b : ℕ) (d : Option SafePtrDynamicData) : SafePtrs η ω :=
  { s with block := Function.update s.block b d }

/-- A handle takes what another one has, and its block is changed with the count. -/
def share (h : η) (p : SafePtr ω) (f : SafePtrDynamicData → SafePtrDynamicData) :
    Option (SafePtrs η ω) :=
  match p.data with
  | none => some (s.setHandle h (some p))
  | some b =>
      (s.block b).map fun d =>
        (s.setBlock b (some { f d with useCount := (f d).useCount + 1 })).setHandle h (some p)

/-- A new block with one handle. -/
def allocate (h : η) (ptr : Option ω) : SafePtrs η ω :=
  { s with
    handle := Function.update s.handle h (some ⟨some s.nextBlock, ptr⟩)
    block := Function.update s.block s.nextBlock (some { valid := ptr.isSome })
    nextBlock := s.nextBlock + 1
    createdFor := Function.update s.createdFor s.nextBlock ptr }

/-- Where a class derives from `SafePtr`, its objects have handles of their own. -/
def construct (own : ω → Option η) (h : η) : Option ω → Option (SafePtrs η ω)
  | none => some (s.setHandle h (some {}))
  | some o =>
      let s := s.setHandle h (some {})
      ((own o).elim (some none) fun g => (s.handle g).map SafePtr.data).bind fun data =>
        data.elim (some (s.allocate h (some o))) fun b => s.share h ⟨some b, some o⟩ id

/-- What the destructor and the assignment do to the block that the handle has. -/
def letGo (data : Option ℕ) : Option (SafePtrs η ω) :=
  match data with
  | none => some s
  | some b =>
      (s.block b).map fun d =>
        s.setBlock b (if d.useCount ≤ 1 then none else some { d with useCount := d.useCount - 1 })

def destroy (h : η) : Option (SafePtrs η ω) :=
  (s.handle h).bind fun p => (s.letGo p.data).map fun s => s.setHandle h none

/-- Only with a block `m_ptr` is assigned. -/
def copyAssign (h g : η) : Option (SafePtrs η ω) :=
  (s.handle h).bind fun p =>
    (s.handle g).bind fun q =>
      (s.letGo p.data).bind fun s =>
        s.share h { q with ptr := q.data.elim p.ptr fun _ => q.ptr } fun d =>
          { d with valid := q.ptr.isSome }

/-- `AutoFree` as far as `RecursiveLockIfValid`, with its answer. -/
def autoFree (copy h : η) : Option (SafePtrs η ω × Bool) :=
  (s.handle h).bind fun p =>
    (s.share copy p id).bind fun s =>
      match p.data with
      | none => (s.destroy copy).map (·, false)
      | some b =>
          (s.block b).bind fun d =>
            d.recursiveLock.bind fun d =>
              if d.valid then
                some ({ s.setBlock b (some d) with freeing := copy :: s.freeing }, true)
              else ((s.setBlock b (some d.unlock)).destroy copy).map (·, false)

/-- `AutoFree` behind the call of the function. -/
def freed : Option (SafePtrs η ω) :=
  match s.freeing with
  | [] => none
  | copy :: freeing =>
      (s.handle copy).bind fun p =>
        p.data.bind fun b =>
          (s.block b).bind fun d =>
            let s : SafePtrs η ω :=
              { s.setBlock b (some { d with valid := false }.unlock) with
                released := p.ptr.elim s.released fun o => Function.update s.released o true
                freeing }
            (s.setHandle copy (some { p with ptr := none })).destroy copy

/-- With the answer of `AutoFree`, and `false` otherwise. -/
def step (own : ω → Option η) : SafePtrCall η ω → Option (SafePtrs η ω × Bool)
  | .construct h ptr => (s.construct own h ptr).map (·, false)
  | .default h => some (s.allocate h none, false)
  | .copy h g => ((s.handle g).bind fun p => s.share h p id).map (·, false)
  | .copyAssign h g => (s.copyAssign h g).map (·, false)
  | .autoFree copy h => s.autoFree copy h
  | .freed => s.freed.map (·, true)
  | .destroy h => (s.destroy h).map (·, false)

/-! ## What holds of the handles and the blocks -/

section

variable {η ω : Type} {s s' s'' : SafePtrs η ω} {h g : η} {b : ℕ} {o : ω}
variable {d e : SafePtrDynamicData} {p : SafePtr ω}

def dataOf (s : SafePtrs η ω) (h : η) : Option ℕ := (s.handle h).bind SafePtr.data

def ptrOf (s : SafePtrs η ω) (h : η) : Option ω := (s.handle h).bind SafePtr.ptr

structure Consistent (s : SafePtrs η ω) : Prop where
  useCount : ∀ b d, s.block b = some d → d.useCount.toNat = References.count s.dataOf b
  block : ∀ b, (∃ d, s.block b = some d) ↔ ∃ h, s.dataOf h = some b
  ptr : ∀ h o, s.ptrOf h = some o → ∃ b, s.dataOf h = some b ∧ s.createdFor b = some o
  freed : ∀ h b d o, s.dataOf h = some b → s.block b = some d → s.createdFor b = some o →
    s.released o = true → d.valid = false

/-- Blocks are deleted once, and objects stay released. -/
structure Follows (s s' : SafePtrs η ω) : Prop where
  next : s.nextBlock ≤ s'.nextBlock
  createdFor : ∀ b < s.nextBlock, s'.createdFor b = s.createdFor b
  gone : ∀ b < s.nextBlock, s.block b = none → s'.block b = none
  released : ∀ o, s.released o = true → s'.released o = true

/-- What every step promises. -/
structure Promise (s : SafePtrs η ω) (call : SafePtrCall η ω) (s' : SafePtrs η ω) : Prop where
  consistent : s'.Consistent
  follows : s.Follows s'
  releases : call = .freed → ∀ k ∈ s.freeing.head?, ∀ o, s.ptrOf k = some o → s'.released o = true

/-! ## Conditions on a step -/

/-- A handle of the program that is alive. -/
def Named (s : SafePtrs η ω) (h : η) : Prop := s.handle h ≠ none ∧ h ∉ s.freeing

/-- The handle that an object of a derived class has of its own is alive. -/
def WellFormed (own : ω → Option η) (s : SafePtrs η ω) : SafePtrCall η ω → Prop
  | .construct h ptr =>
      s.handle h = none ∧ ∀ o ∈ ptr, ∀ g ∈ own o, g ≠ h → s.handle g ≠ none
  | .default h => s.handle h = none
  | .copy h g => s.handle h = none ∧ s.Named g
  | .copyAssign h g => s.Named h ∧ s.Named g
  | .autoFree copy h => s.handle copy = none ∧ s.Named h
  | .freed => s.freeing ≠ []
  | .destroy h => s.Named h

/-- The block can take one more handle. -/
def Fits (s : SafePtrs η ω) (b : ℕ) : Prop :=
  ∀ d, s.block b = some d → d.useCount.toNat + 1 < 2 ^ 32

def NotReleased (s : SafePtrs η ω) (ptr : Option ω) : Prop := ∀ o ∈ ptr, s.released o = false

structure AssignsWell (s : SafePtrs η ω) (h g : η) : Prop where
  /-- Without a block `m_ptr` stays what it was. -/
  null : s.dataOf g = none → s.ptrOf h = none
  /-- The only handle is not assigned to itself. -/
  self : h = g → ∀ b d, s.dataOf g = some b → s.block b = some d → d.useCount ≠ 1
  /-- The handle is not one of a released object. -/
  notReleased : s.dataOf g ≠ none → s.NotReleased (s.ptrOf g)
  fits : ∀ b, s.dataOf g = some b → s.dataOf h ≠ some b → s.Fits b

def Keeps (own : ω → Option η) (s : SafePtrs η ω) : SafePtrCall η ω → Prop
  | .construct h ptr => ∀ o ∈ ptr,
      ((∀ g ∈ own o, g ≠ h → s.dataOf g = none) → s.released o = false) ∧
      ∀ g ∈ own o, g ≠ h → ∀ b, s.dataOf g = some b → s.createdFor b = some o ∧ s.Fits b
  | .copy _ g => ∀ b, s.dataOf g = some b → s.Fits b
  | .copyAssign h g => s.AssignsWell h g
  | .autoFree _ h => ∀ b, s.dataOf h = some b → s.Fits b
  | .freed => ∀ k ∈ s.freeing.head?, ∀ o, s.ptrOf k = some o → ∀ b d, s.dataOf k ≠ some b →
      s.block b = some d → s.createdFor b = some o → d.valid = false
  | _ => True

/-! ## The invariant -/

def uses (block : Option SafePtrDynamicData) : ℕ := block.elim 0 (·.useCount.toNat)

structure BlockSound (s : SafePtrs η ω) (b : ℕ) (d : SafePtrDynamicData) : Prop where
  used : d.useCount ≠ 0
  owned : d.lock = true → d.owned = true
  freed : ∀ o, s.createdFor b = some o → s.released o = true → d.valid = false

structure Sound (s : SafePtrs η ω) : Prop where
  finite : References.FinitelyMany s.dataOf
  counted : ∀ b, uses (s.block b) = References.count s.dataOf b
  blocks : ∀ b d, s.block b = some d → s.BlockSound b d
  fresh : ∀ b, s.nextBlock ≤ b → s.block b = none
  ptr : ∀ h p, s.handle h = some p → p.ptr = p.data.bind s.createdFor
  freeing : ∀ k ∈ s.freeing, s.dataOf k ≠ none
  nodup : s.freeing.Nodup

theorem sound_empty : ({} : SafePtrs η ω).Sound where
  finite := by simp [References.FinitelyMany, dataOf]
  counted _ := (References.count_eq_zero nofun).symm
  blocks := nofun
  fresh _ _ := rfl
  ptr := nofun
  freeing := nofun
  nodup := .nil

theorem dataOf_some (hp : s.handle h = some p) : s.dataOf h = p.data := by
  rw [dataOf, hp]
  rfl

theorem dataOf_none (hh : s.handle h = none) : s.dataOf h = none := by
  rw [dataOf, hh]
  rfl

theorem Sound.exists_block (hs : s.Sound) (hb : s.dataOf h = some b) :
    ∃ d, s.block b = some d := by
  have hpos := hs.finite.count_pos hb
  rw [← hs.counted b] at hpos
  apply Option.ne_none_iff_exists'.mp
  intro hnone
  rw [hnone] at hpos
  exact absurd hpos (lt_irrefl 0)

theorem Sound.lt (hs : s.Sound) (hb : s.block b = some d) : b < s.nextBlock := by
  by_contra hle
  rw [hs.fresh b (Nat.le_of_not_lt hle)] at hb
  cases hb

theorem Sound.notMem_freeing (hs : s.Sound) (hh : s.dataOf h = none) : h ∉ s.freeing :=
  fun hmem => hs.freeing h hmem hh

theorem Sound.consistent (hs : s.Sound) : s.Consistent where
  useCount b d hb := by
    have hcounted := hs.counted b
    rwa [hb] at hcounted
  block b := by
    constructor
    · rintro ⟨d, hb⟩
      apply References.exists_of_count_pos
      rw [← hs.counted b, hb]
      exact Nat.pos_of_ne_zero fun hzero => (hs.blocks b d hb).used (UInt32.toNat_inj.mp hzero)
    · rintro ⟨h, hh⟩
      exact hs.exists_block hh
  ptr h o ho := by
    obtain ⟨p, hp, hptr⟩ := Option.bind_eq_some_iff.mp ho
    rw [hs.ptr h p hp] at hptr
    obtain ⟨b, hb, hcreated⟩ := Option.bind_eq_some_iff.mp hptr
    exact ⟨b, (dataOf_some hp).trans hb, hcreated⟩
  freed _ b d o _ hb := (hs.blocks b d hb).freed o

theorem Follows.trans (h : s.Follows s') (h' : s'.Follows s'') : s.Follows s'' where
  next := h.next.trans h'.next
  createdFor b hb := (h'.createdFor b (hb.trans_le h.next)).trans (h.createdFor b hb)
  gone b hb hnone := h'.gone b (hb.trans_le h.next) (h.gone b hb hnone)
  released o ho := h'.released o (h.released o ho)

/-- Everything but the handles and the blocks that are there. -/
structure Frame (s s' : SafePtrs η ω) : Prop where
  next : s'.nextBlock = s.nextBlock
  createdFor : s'.createdFor = s.createdFor
  released : s'.released = s.released
  freeing : s'.freeing = s.freeing
  gone : ∀ b, s.block b = none → s'.block b = none

theorem Frame.trans (h : s.Frame s') (h' : s'.Frame s'') : s.Frame s'' where
  next := h'.next.trans h.next
  createdFor := h'.createdFor.trans h.createdFor
  released := h'.released.trans h.released
  freeing := h'.freeing.trans h.freeing
  gone b hb := h'.gone b (h.gone b hb)

theorem Frame.follows (h : s.Frame s') : s.Follows s' where
  next := h.next.ge
  createdFor b _ := congrFun h.createdFor b
  gone b _ hb := h.gone b hb
  released o ho := by rwa [h.released]

theorem Frame.of_block {x : Option SafePtrDynamicData} (hb : s.block b = some d)
    (hblock : s'.block = Function.update s.block b x) (hnext : s'.nextBlock = s.nextBlock)
    (hcreated : s'.createdFor = s.createdFor) (hreleased : s'.released = s.released)
    (hfreeing : s'.freeing = s.freeing) : s.Frame s' := by
  refine ⟨hnext, hcreated, hreleased, hfreeing, fun c hc => ?_⟩
  have hcb : c ≠ b := by
    rintro rfl
    rw [hb] at hc
    cases hc
  rw [hblock, Function.update_of_ne hcb, hc]

/-- One block changes, and its count with the handles. -/
theorem Sound.of_block {x : Option SafePtrDynamicData} (hs : s.Sound) (hframe : s.Frame s')
    (hfinite : References.FinitelyMany s'.dataOf)
    (hothers : ∀ c, c ≠ b → References.count s'.dataOf c = References.count s.dataOf c)
    (hblock : s'.block = Function.update s.block b x) (hlt : b < s.nextBlock)
    (huses : uses x = References.count s'.dataOf b) (hx : ∀ d, x = some d → s.BlockSound b d)
    (hptr : ∀ h p, s'.handle h = some p → p.ptr = p.data.bind s.createdFor)
    (hfreeing : ∀ k ∈ s.freeing, s'.dataOf k ≠ none) : s'.Sound where
  finite := hfinite
  counted c := by
    rw [hblock]
    by_cases hcb : c = b
    · rw [hcb, Function.update_self, huses]
    · rw [Function.update_of_ne hcb, hothers c hcb, hs.counted]
  blocks c d hc := by
    have hsound : s.BlockSound c d := by
      rw [hblock] at hc
      by_cases hcb : c = b
      · rw [hcb, Function.update_self] at hc
        exact hcb ▸ hx d hc
      · rw [Function.update_of_ne hcb] at hc
        exact hs.blocks c d hc
    refine ⟨hsound.used, hsound.owned, fun o ho hreleased => ?_⟩
    rw [hframe.createdFor] at ho
    rw [hframe.released] at hreleased
    exact hsound.freed o ho hreleased
  fresh c hc := by
    rw [hframe.next] at hc
    rw [hblock, Function.update_of_ne (by omega)]
    exact hs.fresh c hc
  ptr h p hp := by
    rw [hframe.createdFor]
    exact hptr h p hp
  freeing k hk := hfreeing k (hframe.freeing ▸ hk)
  nodup := hframe.freeing ▸ hs.nodup

/-- The count stays as it is. -/
theorem Sound.setBlock (hs : s.Sound) (hb : s.block b = some d) (huse : e.useCount = d.useCount)
    (he : s.BlockSound b e) : (s.setBlock b (some e)).Sound ∧ s.Frame (s.setBlock b (some e)) := by
  have hframe : s.Frame (s.setBlock b (some e)) := .of_block hb rfl rfl rfl rfl rfl
  have huses : uses (some e) = References.count s.dataOf b := by
    rw [← hs.counted b, hb, uses, uses, Option.elim_some, Option.elim_some, huse]
  refine ⟨?_, hframe⟩
  apply hs.of_block hframe hs.finite (fun _ _ => rfl) rfl (hs.lt hb) huses _ hs.ptr hs.freeing
  rintro _ ⟨⟩
  exact he

/-- The last copy is gone, and what it was released with. -/
theorem Sound.pop {freeing : List η} {released : ω → Bool} (hs : s.Sound)
    (hfree : freeing.Sublist s.freeing)
    (hreleased : ∀ b d o, s.block b = some d → s.createdFor b = some o → released o = true →
      d.valid = false) : Sound { s with released, freeing } where
  finite := hs.finite
  counted := hs.counted
  blocks b d hb :=
    { used := (hs.blocks b d hb).used
      owned := (hs.blocks b d hb).owned
      freed := fun o ho hr => hreleased b d o hb ho hr }
  fresh := hs.fresh
  ptr := hs.ptr
  freeing k hk := hs.freeing k (hfree.subset hk)
  nodup := hs.nodup.sublist hfree

theorem not_le_one {n : UInt32} (hzero : n ≠ 0) (hone : n ≠ 1) : ¬n ≤ 1 := by
  rw [Ne, ← UInt32.toNat_inj] at hzero hone
  rw [UInt32.le_iff_toNat_le]
  change n.toNat ≠ 0 at hzero
  change n.toNat ≠ 1 at hone
  change ¬n.toNat ≤ 1
  omega

theorem toNat_sub_one {n : UInt32} (h : ¬n ≤ 1) : (n - 1).toNat + 1 = n.toNat := by
  rw [UInt32.le_iff_toNat_le] at h
  change ¬n.toNat ≤ 1 at h
  rw [UInt32.toNat_sub_of_le _ _ (UInt32.le_iff_toNat_le.mpr (by change 1 ≤ n.toNat; omega))]
  change n.toNat - 1 + 1 = n.toNat
  omega

/-- What is left of a block with one reference less. -/
def afterRelease (d : SafePtrDynamicData) : Option SafePtrDynamicData :=
  if d.useCount ≤ 1 then none else some { d with useCount := d.useCount - 1 }

theorem uses_afterRelease (hused : d.useCount ≠ 0) :
    uses (afterRelease d) + 1 = d.useCount.toNat := by
  rw [afterRelease]
  split
  · next hle =>
      have hone : d.useCount.toNat ≤ 1 := UInt32.le_iff_toNat_le.mp hle
      have hzero : d.useCount.toNat ≠ 0 := fun hzero => hused (UInt32.toNat_inj.mp hzero)
      rw [uses, Option.elim_none]
      omega
  · next hle => exact toNat_sub_one hle

theorem afterRelease_of_ne_one (hused : d.useCount ≠ 0) (hone : d.useCount ≠ 1) :
    afterRelease d = some { d with useCount := d.useCount - 1 } := by
  apply if_neg
  exact not_le_one hused hone

theorem BlockSound.afterRelease {e : SafePtrDynamicData} (h : s.BlockSound b d)
    (he : afterRelease d = some e) : s.BlockSound b e := by
  rw [SafePtrs.afterRelease] at he
  split at he
  · cases he
  · next hle =>
      cases he
      refine ⟨fun hzero => ?_, h.owned, h.freed⟩
      have h' := toNat_sub_one hle
      rw [show d.useCount - 1 = 0 from hzero] at h'
      rw [UInt32.le_iff_toNat_le, ← h'] at hle
      exact hle le_rfl

end

/-! ## Single changes -/

section

variable {η ω : Type} [DecidableEq η] {s s' : SafePtrs η ω} {h g : η} {b : ℕ}
variable {d e : SafePtrDynamicData} {p : SafePtr ω}

theorem setHandle_self (q : Option (SafePtr ω)) : (s.setHandle h q).handle h = q :=
  Function.update_self ..

theorem setHandle_ne (q : Option (SafePtr ω)) (hgh : g ≠ h) :
    (s.setHandle h q).handle g = s.handle g :=
  Function.update_of_ne hgh ..

theorem dataOf_setHandle (p : Option (SafePtr ω)) :
    (s.setHandle h p).dataOf = Function.update s.dataOf h (p.bind SafePtr.data) := by
  funext g
  by_cases hgh : g = h <;> simp [dataOf, setHandle, hgh]

theorem toNat_add_one {n : UInt32} (h : n.toNat + 1 < 2 ^ 32) : (n + 1).toNat = n.toNat + 1 := by
  rw [UInt32.toNat_add]
  exact Nat.mod_eq_of_lt h

/-- The pointer of the handle that is set must be that of its block. -/
theorem Sound.ptr_setHandle {q : Option (SafePtr ω)} (hs : s.Sound)
    (hq : ∀ p, q = some p → p.ptr = p.data.bind s.createdFor) (g : η) (p : SafePtr ω)
    (hp : (s.setHandle h q).handle g = some p) : p.ptr = p.data.bind s.createdFor := by
  by_cases hgh : g = h
  · rw [hgh, setHandle_self] at hp
    exact hq p hp
  · rw [setHandle_ne q hgh] at hp
    exact hs.ptr g p hp

/-- The handles that are freeing keep their blocks when another handle changes. -/
theorem Sound.freeing_update {t : SafePtrs η ω} {data : Option ℕ} (hs : s.Sound)
    (hh : h ∉ s.freeing) (htdata : t.dataOf = Function.update s.dataOf h data) (k : η)
    (hk : k ∈ s.freeing) : t.dataOf k ≠ none := by
  have hkh : k ≠ h := by
    rintro rfl
    exact hh hk
  rw [htdata, Function.update_of_ne hkh]
  exact hs.freeing k hk

/-- A handle without a block stays without one. -/
theorem Sound.setHandle_null {q : Option (SafePtr ω)} (hs : s.Sound) (hh : s.dataOf h = none)
    (hq : ∀ p, q = some p → p = {}) : (s.setHandle h q).Sound := by
  have hdata : (s.setHandle h q).dataOf = s.dataOf := by
    rw [dataOf_setHandle]
    apply Function.update_eq_self_iff.mpr
    cases q with
    | none => exact hh.symm
    | some p =>
        rw [hq p rfl]
        exact hh.symm
  refine ⟨hdata ▸ hs.finite, hdata ▸ hs.counted, fun b d hb => ?_, hs.fresh,
    hs.ptr_setHandle (fun p hp => ?_), hdata ▸ hs.freeing, hs.nodup⟩
  · obtain ⟨hused, howned, hfreed⟩ := hs.blocks b d hb
    exact ⟨hused, howned, hfreed⟩
  · rw [hq p hp]
    rfl

/-- A handle that referred to nothing takes one more reference to a block. -/
theorem Sound.share {f : SafePtrDynamicData → SafePtrDynamicData} (hs : s.Sound)
    (hh : s.dataOf h = none) (hptr : p.ptr = p.data.bind s.createdFor)
    (hblock : ∀ b, p.data = some b → ∃ d, s.block b = some d ∧ d.useCount.toNat + 1 < 2 ^ 32 ∧
      (f d).useCount = d.useCount ∧ s.BlockSound b (f d)) :
    ∃ s', s.share h p f = some s' ∧ s'.Sound ∧ s.Frame s' ∧
      s'.handle = Function.update s.handle h (some p) := by
  cases hdata : p.data with
  | none =>
      have hnull : p = {} := by
        rw [hdata] at hptr
        cases p
        simp_all
      refine ⟨s.setHandle h (some p), by rw [SafePtrs.share, hdata], ?_, ?_, rfl⟩
      · exact hs.setHandle_null hh fun q hq => (Option.some.inj hq).symm.trans hnull
      · exact ⟨rfl, rfl, rfl, rfl, fun _ hc => hc⟩
  | some b =>
      obtain ⟨d, hb, hfits, huse, hsound⟩ := hblock b hdata
      let e : SafePtrDynamicData := { f d with useCount := (f d).useCount + 1 }
      let t := (s.setBlock b (some e)).setHandle h (some p)
      have hframe : s.Frame t := .of_block hb rfl rfl rfl rfl rfl
      have htdata : t.dataOf = Function.update s.dataOf h (some b) := by
        rw [dataOf_setHandle, ← hdata]
        rfl
      have hcount (c : ℕ) : References.count t.dataOf c =
          References.count s.dataOf c + if b = c then 1 else 0 := by
        have h' := hs.finite.count_update h (some b) c
        rw [hh, if_neg (Option.some_ne_none c).symm] at h'
        simpa [htdata] using h'
      have hnat : e.useCount.toNat = d.useCount.toNat + 1 := by
        change ((f d).useCount + 1).toNat = _
        rw [huse, toNat_add_one hfits]
      have huses : uses (some e) = References.count t.dataOf b := by
        rw [hcount, if_pos rfl, ← hs.counted b, hb]
        exact hnat
      refine ⟨t, by rw [SafePtrs.share, hdata]; simp [hb, t, e], ?_, hframe, rfl⟩
      apply hs.of_block hframe (htdata ▸ hs.finite.update h (some b)) _ rfl (hs.lt hb) huses
      · rintro _ ⟨⟩
        refine ⟨fun hzero => ?_, hsound.owned, hsound.freed⟩
        rw [hzero] at hnat
        exact absurd hnat (Nat.succ_ne_zero _).symm
      · apply hs.ptr_setHandle
        rintro _ ⟨⟩
        exact hptr
      · exact hs.freeing_update (hs.notMem_freeing hh) htdata
      · intro c hc
        rw [hcount, if_neg hc.symm, Nat.add_zero]

/-- A handle lets go of its block, which stays with one reference less or goes. -/
theorem Sound.letGo {q : Option (SafePtr ω)} (hs : s.Sound) (hp : s.handle h = some p)
    (hh : h ∉ s.freeing) (hq : ∀ p, q = some p → p = {}) :
    ∃ s', s.letGo p.data = some s' ∧ s'.handle = s.handle ∧ (s'.setHandle h q).Sound ∧
      s.Frame (s'.setHandle h q) ∧ (∀ b, p.data ≠ some b → s'.block b = s.block b) ∧
      ∀ b d, p.data = some b → s.block b = some d → d.useCount ≠ 1 →
        s'.block b = some { d with useCount := d.useCount - 1 } := by
  cases hdata : p.data with
  | none =>
      refine ⟨s, rfl, rfl, ?_, ⟨rfl, rfl, rfl, rfl, fun _ hc => hc⟩, fun _ _ => rfl, nofun⟩
      exact hs.setHandle_null ((dataOf_some hp).trans hdata) hq
  | some b =>
      have hhb : s.dataOf h = some b := (dataOf_some hp).trans hdata
      obtain ⟨d, hb⟩ := hs.exists_block hhb
      let x := SafePtrs.afterRelease d
      let t := (s.setBlock b x).setHandle h q
      have hnone : q.bind SafePtr.data = none := by
        cases q with
        | none => rfl
        | some p => rw [hq p rfl]; rfl
      have hframe : s.Frame t := .of_block hb rfl rfl rfl rfl rfl
      have htdata : t.dataOf = Function.update s.dataOf h none := by
        rw [dataOf_setHandle, hnone]
        rfl
      have hcount (c : ℕ) : References.count t.dataOf c + (if b = c then 1 else 0) =
          References.count s.dataOf c := by
        have h' := hs.finite.count_update h none c
        rw [hhb] at h'
        simpa [htdata] using h'
      have hsound := hs.blocks b d hb
      have hcounted : uses x = References.count t.dataOf b := by
        have huses : uses x + 1 = d.useCount.toNat := uses_afterRelease hsound.used
        have h' := hcount b
        have hs' := hs.counted b
        rw [if_pos rfl] at h'
        rw [hb, uses, Option.elim_some] at hs'
        omega
      refine ⟨s.setBlock b x, by rw [SafePtrs.letGo, hb]; rfl, rfl, ?_, hframe, ?_, ?_⟩
      · apply hs.of_block hframe (htdata ▸ hs.finite.update h none) _ rfl (hs.lt hb) hcounted
        · exact fun e he => hsound.afterRelease he
        · apply hs.ptr_setHandle
          intro p' hp'
          rw [hq p' hp']
          rfl
        · exact hs.freeing_update hh htdata
        · intro c hc
          rw [← hcount c, if_neg hc.symm, Nat.add_zero]
      · intro c hc
        exact Function.update_of_ne (fun hcb => hc (congrArg some hcb.symm)) _ _
      · rintro c e ⟨⟩ he hone
        cases hb.symm.trans he
        rw [← afterRelease_of_ne_one hsound.used hone]
        exact Function.update_self b x s.block

end

end SafePtrs

end SRCommon
