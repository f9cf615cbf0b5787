import SRCommon.Lib.PartialRun
import SRCommon.Lib.References
import SRCommon.Types.SharedPtr

/-!
# Counts and validity of SharedPtr

A block belongs to an object through the handles that have both, or as the
object's own. As long as no count wraps around and every pointer is handed over
once, the count of a block is the number of its handles, and a block that
belongs to an object is valid exactly while the object is alive.
-/

namespace SRCommon

def PointedObject.isAlive : PointedObject → Bool
  | .alive _ => true
  | _ => false

namespace SharedPtrs

section

variable {η ω : Type} {s s' s'' : SharedPtrs η ω} {h g : η} {b : ℕ} {o : ω}
variable {d d' : SharedPtrDynamicData} {p : SharedPtr ω}

def dataOf (s : SharedPtrs η ω) (h : η) : Option ℕ := (s.handle h).bind (·.data)

def ptrOf (s : SharedPtrs η ω) (h : η) : Option ω := (s.handle h).bind (·.ptr)

def strong (block : Option SharedPtrDynamicData) : ℕ := block.elim 0 (·.strongCount.toNat)

structure Counted (s : SharedPtrs η ω) : Prop where
  finite : References.FinitelyMany s.dataOf
  weak : ∀ b d, s.block b = some d → d.weakCount = 0
  counted : ∀ b, strong (s.block b) = References.count s.dataOf b
  fresh : ∀ b, s.nextBlock ≤ b → s.block b = none

/-- The block is that of the object. -/
def Belongs (s : SharedPtrs η ω) (b : ℕ) (o : ω) : Prop :=
  (∃ h, s.dataOf h = some b ∧ s.ptrOf h = some o) ∨ s.object o = .alive (some b)

structure Paired (s : SharedPtrs η ω) : Prop where
  null : ∀ h, s.dataOf h = none ↔ s.ptrOf h = none
  left : ∀ b o o', s.Belongs b o → s.Belongs b o' → o = o'
  right : ∀ b b' o, s.Belongs b o → s.Belongs b' o → b = b'
  known : ∀ b o, s.Belongs b o → b < s.nextBlock ∧ s.object o ≠ .absent
  valid : ∀ b o d, s.Belongs b o → s.block b = some d → d.valid = (s.object o).isAlive

structure Sound (s : SharedPtrs η ω) : Prop where
  counted : s.Counted
  paired : s.Paired

/-- Objects that are gone stay as they are. -/
def Stays (s s' : SharedPtrs η ω) : Prop :=
  ∀ o, s.object o ≠ .absent → (s.object o).isAlive = false → s'.object o = s.object o

theorem Stays.refl (s : SharedPtrs η ω) : s.Stays s := fun _ _ _ => rfl

theorem Stays.of_eq (h : s'.object = s.object) : s.Stays s' := fun _ _ _ => by rw [h]

theorem Stays.trans (h : s.Stays s') (h' : s'.Stays s'') : s.Stays s'' := by
  intro o hpresent hgone
  have heq := h o hpresent hgone
  rw [← heq]
  exact h' o (by rwa [heq]) (by rwa [heq])

theorem sound_empty : ({} : SharedPtrs η ω).Sound where
  counted :=
    { finite := by simp [References.FinitelyMany, dataOf]
      weak := fun _ _ h => by cases h
      counted := fun b => (References.count_eq_zero fun _ h => by cases h).symm
      fresh := fun _ _ => rfl }
  paired := by
    have hnone : ∀ b o, ¬({} : SharedPtrs η ω).Belongs b o := by
      rintro b o (⟨h, hb, -⟩ | ho)
      · cases hb
      · cases ho
    exact
      { null := fun _ => ⟨fun _ => rfl, fun _ => rfl⟩
        left := fun b o _ h => absurd h (hnone b o)
        right := fun b _ o h => absurd h (hnone b o)
        known := fun b o h => absurd h (hnone b o)
        valid := fun b o _ h => absurd h (hnone b o) }

theorem Counted.exists_block (hs : s.Counted) (hb : s.dataOf h = some b) :
    ∃ d, s.block b = some d ∧ d.strongCount ≠ 0 := by
  have hcounted := hs.counted b
  have hpos := hs.finite.count_pos hb
  cases hblock : s.block b with
  | none =>
      rw [hblock, strong, Option.elim_none] at hcounted
      omega
  | some d =>
      refine ⟨d, rfl, fun hzero => ?_⟩
      rw [hblock, strong, Option.elim_some, hzero] at hcounted
      exact hpos.ne hcounted

theorem Counted.lt (hs : s.Counted) (hb : s.block b = some d) : b < s.nextBlock := by
  by_contra hle
  rw [hs.fresh b (Nat.le_of_not_lt hle)] at hb
  cases hb

theorem Paired.iff (hs : s.Paired) (hb : s.Belongs b o) (h : η) :
    s.dataOf h = some b ↔ s.ptrOf h = some o := by
  constructor
  · intro hdata
    cases hptr : s.ptrOf h with
    | none =>
        rw [(hs.null h).mpr hptr] at hdata
        cases hdata
    | some o' => rw [hs.left b o' o (.inl ⟨h, hdata, hptr⟩) hb]
  · intro hptr
    cases hdata : s.dataOf h with
    | none =>
        rw [(hs.null h).mp hdata] at hptr
        cases hptr
    | some b' => rw [hs.right b' b o (.inl ⟨h, hdata, hptr⟩) hb]

theorem Paired.exists_belongs (hs : s.Paired) (hb : s.dataOf h = some b) :
    ∃ o, s.ptrOf h = some o ∧ s.Belongs b o := by
  cases hptr : s.ptrOf h with
  | none =>
      rw [(hs.null h).mpr hptr] at hb
      cases hb
  | some o => exact ⟨o, rfl, .inl ⟨h, hb, hptr⟩⟩

/-! ## What an operation does to the counts and to the pairs -/

theorem dataOf_update [DecidableEq η] {t : SharedPtrs η ω}
    {p : Option (SharedPtr ω)}
    (hhandle : t.handle = Function.update s.handle h p) :
    t.dataOf = Function.update s.dataOf h (p.bind (·.data)) := by
  funext g
  rw [dataOf, hhandle]
  by_cases hgh : g = h
  · rw [hgh, Function.update_self, Function.update_self]
  · rw [Function.update_of_ne hgh, Function.update_of_ne hgh, dataOf]

theorem ptrOf_update [DecidableEq η] {t : SharedPtrs η ω}
    {p : Option (SharedPtr ω)}
    (hhandle : t.handle = Function.update s.handle h p) :
    t.ptrOf = Function.update s.ptrOf h (p.bind (·.ptr)) := by
  funext g
  rw [ptrOf, hhandle]
  by_cases hgh : g = h
  · rw [hgh, Function.update_self, Function.update_self]
  · rw [Function.update_of_ne hgh, Function.update_of_ne hgh, ptrOf]

theorem Counted.congr (hs : s.Counted) (hdata : s'.dataOf = s.dataOf) (hblock : s'.block = s.block)
    (hnext : s'.nextBlock = s.nextBlock) : s'.Counted where
  finite := hdata ▸ hs.finite
  weak := hblock ▸ hs.weak
  counted := by
    rw [hdata, hblock]
    exact hs.counted
  fresh := by
    rw [hblock, hnext]
    exact hs.fresh

/-- One block changes, and its count with the handles. -/
theorem Counted.of_block {x : Option SharedPtrDynamicData} (hs : s.Counted)
    (hfinite : References.FinitelyMany s'.dataOf)
    (hothers : ∀ c, c ≠ b → References.count s'.dataOf c = References.count s.dataOf c)
    (hblock : s'.block = Function.update s.block b x) (hnext : s.nextBlock ≤ s'.nextBlock)
    (hlt : b < s'.nextBlock) (hweak : ∀ d, x = some d → d.weakCount = 0)
    (hstrong : strong x = References.count s'.dataOf b) : s'.Counted where
  finite := hfinite
  weak c d hc := by
    rw [hblock] at hc
    by_cases hcb : c = b
    · rw [hcb, Function.update_self] at hc
      exact hweak d hc
    · rw [Function.update_of_ne hcb] at hc
      exact hs.weak c d hc
  counted c := by
    rw [hblock]
    by_cases hcb : c = b
    · rw [hcb, Function.update_self, hstrong]
    · rw [Function.update_of_ne hcb, hothers c hcb, hs.counted]
  fresh c hc := by
    rw [hblock, Function.update_of_ne (by omega)]
    exact hs.fresh c (by omega)

/-- A handle refers to the block from now on, or no longer. -/
theorem Counted.update [DecidableEq η] {x : Option SharedPtrDynamicData} {y : Option ℕ}
    (hs : s.Counted) (hdata : s'.dataOf = Function.update s.dataOf h y)
    (hblock : s'.block = Function.update s.block b x) (hnext : s.nextBlock ≤ s'.nextBlock)
    (hlt : b < s'.nextBlock) (hold : ∀ c, s.dataOf h = some c → c = b)
    (hnew : ∀ c, y = some c → c = b) (hweak : ∀ d, x = some d → d.weakCount = 0)
    (hstrong : strong x + (if s.dataOf h = some b then 1 else 0) =
      strong (s.block b) + if y = some b then 1 else 0) : s'.Counted := by
  have hcount : ∀ c, References.count s'.dataOf c + (if s.dataOf h = some c then 1 else 0) =
      References.count s.dataOf c + if y = some c then 1 else 0 := fun c => by
    rw [hdata]
    exact hs.finite.count_update h y c
  refine hs.of_block (hdata ▸ hs.finite.update h y) (fun c hc => ?_) hblock hnext hlt hweak ?_
  · have h' := hcount c
    rw [if_neg fun hold' => hc (hold c hold'), if_neg fun hnew' => hc (hnew c hnew')] at h'
    exact h'
  · have h' := hcount b
    rw [hs.counted] at hstrong
    omega

theorem Paired.of_le (hs : s.Paired) (hnull : ∀ h, s'.dataOf h = none ↔ s'.ptrOf h = none)
    (hbelongs : ∀ b o, s'.Belongs b o → s.Belongs b o) (hnext : s.nextBlock ≤ s'.nextBlock)
    (hpresent : ∀ o, s'.object o = .absent → s.object o = .absent)
    (hvalid : ∀ b o d, s.Belongs b o → s'.block b = some d → d.valid = (s'.object o).isAlive) :
    s'.Paired where
  null := hnull
  left b o o' ho ho' := hs.left b o o' (hbelongs b o ho) (hbelongs b o' ho')
  right b b' o hb hb' := hs.right b b' o (hbelongs b o hb) (hbelongs b' o hb')
  known b o hb := by
    obtain ⟨hlt, ho⟩ := hs.known b o (hbelongs b o hb)
    exact ⟨hlt.trans_le hnext, fun habsent => ho (hpresent o habsent)⟩
  valid b o d hb := hvalid b o d (hbelongs b o hb)

/-- A new block comes to belong to an object that had none. -/
theorem Paired.extend (hs : s.Paired) (hnull : ∀ h, s'.dataOf h = none ↔ s'.ptrOf h = none)
    (hbelongs : ∀ c u, s'.Belongs c u → s.Belongs c u ∨ c = s.nextBlock ∧ u = o)
    (hnone : ∀ c, ¬s.Belongs c o) (hnext : s'.nextBlock = s.nextBlock + 1)
    (hobject : ∀ u, u ≠ o → s'.object u = s.object u)
    (ho : (s'.object o).isAlive = true)
    (hblock : s'.block = Function.update s.block s.nextBlock (some d)) (hd : d.valid = true) :
    s'.Paired := by
  have hnew : ∀ u, ¬s.Belongs s.nextBlock u := fun u hu => (hs.known _ u hu).1.ne rfl
  refine ⟨hnull, fun c u u' hu hu' => ?_, fun c c' u hc hc' => ?_, fun c u hc => ?_,
    fun c u e hc he => ?_⟩
  · rcases hbelongs c u hu with hu | ⟨rfl, rfl⟩ <;> rcases hbelongs _ u' hu' with hu' | ⟨hc, rfl⟩
    · exact hs.left c u u' hu hu'
    · exact absurd (hc ▸ hu) (hnew u)
    · exact absurd hu' (hnew u')
    · rfl
  · rcases hbelongs c u hc with hc | ⟨rfl, rfl⟩ <;> rcases hbelongs c' _ hc' with hc' | ⟨rfl, hu⟩
    · exact hs.right c c' u hc hc'
    · exact absurd (hu ▸ hc) (hnone c)
    · exact absurd hc' (hnone c')
    · rfl
  · rcases hbelongs c u hc with hc | ⟨rfl, rfl⟩
    · obtain ⟨hlt, hpresent⟩ := hs.known c u hc
      refine ⟨by omega, ?_⟩
      rw [hobject u]
      · exact hpresent
      · rintro rfl
        exact hnone c hc
    · refine ⟨by omega, fun habsent => ?_⟩
      rw [habsent] at ho
      cases ho
  · rcases hbelongs c u hc with hc | ⟨rfl, rfl⟩
    · have hne : c ≠ s.nextBlock := (hs.known c u hc).1.ne
      rw [hblock, Function.update_of_ne hne] at he
      rw [hobject u]
      · exact hs.valid c u e hc he
      · rintro rfl
        exact hnone c hc
    · rw [hblock, Function.update_self] at he
      cases he
      rw [ho, hd]

theorem belongs_congr (hdata : s'.dataOf = s.dataOf) (hptr : s'.ptrOf = s.ptrOf)
    (hobject : s'.object = s.object) : s'.Belongs b o ↔ s.Belongs b o := by
  rw [Belongs, Belongs, hdata, hptr, hobject]

theorem Sound.congr (hs : s.Sound) (hdata : s'.dataOf = s.dataOf) (hptr : s'.ptrOf = s.ptrOf)
    (hblock : s'.block = s.block) (hnext : s'.nextBlock = s.nextBlock)
    (hobject : s'.object = s.object) : s'.Sound where
  counted := hs.counted.congr hdata hblock hnext
  paired := by
    refine hs.paired.of_le ?_ (fun b o => (belongs_congr hdata hptr hobject).mp) hnext.ge ?_ ?_
    · rw [hdata, hptr]
      exact hs.paired.null
    · rw [hobject]
      exact fun _ => id
    · rw [hblock, hobject]
      exact hs.paired.valid

/-- A handle that refers to nothing is constructed or destroyed. -/
theorem Sound.setHandle_null [DecidableEq η] {p : Option (SharedPtr ω)} (hs : s.Sound)
    (hnone : s.dataOf h = none) (hp : p.bind (·.data) = none) (hp' : p.bind (·.ptr) = none) :
    (s.setHandle h p).Sound := by
  have hdata := dataOf_update (s := s) (t := s.setHandle h p) rfl
  have hptr := ptrOf_update (s := s) (t := s.setHandle h p) rfl
  rw [hp, ← hnone, Function.update_eq_self] at hdata
  rw [hp', ← (hs.paired.null h).mp hnone, Function.update_eq_self] at hptr
  exact hs.congr hdata hptr rfl rfl rfl

/-- Handles that let go leave fewer pairs. -/
theorem belongs_of_update [DecidableEq η] {b₀ : ℕ} {o₀ : ω} {y : Option ℕ} {z : Option ω}
    (hdata : s'.dataOf = Function.update s.dataOf h y)
    (hptr : s'.ptrOf = Function.update s.ptrOf h z)
    (hown : ∀ u c, s'.object u = .alive (some c) → s.object u = .alive (some c))
    (hnew : ∀ c u, y = some c → z = some u → s.Belongs c u) (hb : s'.Belongs b₀ o₀) :
    s.Belongs b₀ o₀ := by
  rcases hb with ⟨g, hg, hg'⟩ | ho
  · rw [hdata] at hg
    rw [hptr] at hg'
    by_cases hgh : g = h
    · rw [hgh, Function.update_self] at hg hg'
      exact hnew b₀ o₀ hg hg'
    · rw [Function.update_of_ne hgh] at hg hg'
      exact .inl ⟨g, hg, hg'⟩
  · exact .inr (hown o₀ b₀ ho)

theorem null_update [DecidableEq η] {y : Option ℕ} {z : Option ω} (hs : s.Paired)
    (hdata : s'.dataOf = Function.update s.dataOf h y)
    (hptr : s'.ptrOf = Function.update s.ptrOf h z) (hyz : y = none ↔ z = none) (g : η) :
    s'.dataOf g = none ↔ s'.ptrOf g = none := by
  rw [hdata, hptr]
  by_cases hgh : g = h
  · rw [hgh, Function.update_self, Function.update_self]
    exact hyz
  · rw [Function.update_of_ne hgh, Function.update_of_ne hgh]
    exact hs.null g

/-! ## Taking references -/

section

theorem not_belongs_of_new (ho : ∀ c, s.object o ≠ .alive (some c))
    (hnew : ∀ g, s.ptrOf g ≠ some o) (c : ℕ) : ¬s.Belongs c o := by
  rintro (⟨g, -, hg⟩ | halive)
  · exact hnew g hg
  · exact ho c halive

variable [DecidableEq η]

theorem toNat_add_one {n : UInt16} (h : n ≠ 65535) : (n + 1).toNat = n.toNat + 1 := by
  have hlt := n.toNat_lt
  have hne : n.toNat ≠ 65535 := fun heq => h (UInt16.toNat_inj.mp heq)
  rw [UInt16.toNat_add]
  change (n.toNat + 1) % 2 ^ 16 = n.toNat + 1
  omega

/-- A handle that referred to nothing takes one more reference to a block. -/
theorem Sound.refer {e : SharedPtrDynamicData} (hs : s.Sound) (hh : s.dataOf h = none)
    (hbelongs : s.Belongs b o) (hb : s.block b = some d)
    (hhandle : s'.handle = Function.update s.handle h (some ⟨some b, some o⟩))
    (hblock : s'.block = Function.update s.block b (some e)) (hnext : s'.nextBlock = s.nextBlock)
    (hobject : s'.object = s.object) (hstrong : e.strongCount.toNat = d.strongCount.toNat + 1)
    (hweak : e.weakCount = d.weakCount) (hvalid : e.valid = d.valid) : s'.Sound := by
  have hdata : s'.dataOf = Function.update s.dataOf h (some b) := dataOf_update hhandle
  have hptr : s'.ptrOf = Function.update s.ptrOf h (some o) := ptrOf_update hhandle
  refine ⟨?_, ?_⟩
  · refine hs.counted.update hdata hblock hnext.ge (hnext ▸ hs.counted.lt hb) (fun c hc => ?_)
      (fun c hc => (Option.some.inj hc).symm) ?_ ?_
    · rw [hh] at hc
      cases hc
    · rintro _ ⟨⟩
      rw [hweak]
      exact hs.counted.weak b d hb
    · rw [hh, hb, if_neg (Option.some_ne_none b).symm, if_pos rfl]
      exact hstrong
  · refine hs.paired.of_le (null_update hs.paired hdata hptr (by simp))
      (fun c u => belongs_of_update hdata hptr (fun u c => by rw [hobject]; exact id) ?_)
      hnext.ge (fun u => by rw [hobject]; exact id) fun c u x hc hx => ?_
    · rintro _ _ ⟨⟩ ⟨⟩
      exact hbelongs
    · rw [hobject]
      rw [hblock] at hx
      by_cases hcb : c = b
      · rw [hcb, Function.update_self] at hx
        cases hx
        rw [hvalid]
        exact hs.paired.valid b u d (hcb ▸ hc) hb
      · rw [Function.update_of_ne hcb] at hx
        exact hs.paired.valid c u x hc hx

theorem Sound.share {f : SharedPtrDynamicData → SharedPtrDynamicData} (hs : s.Sound)
    (hh : s.dataOf h = none) (hp : p.data = none → p.ptr = none)
    (hbelongs : ∀ b, p.data = some b → ∃ o, p.ptr = some o ∧ s.Belongs b o)
    (hf : ∀ b d, p.data = some b → s.block b = some d → d.strongCount ≠ 65535 ∧
      (f d).strongCount = d.strongCount ∧ (f d).weakCount = d.weakCount ∧ (f d).valid = d.valid)
    (hshare : s.share h p f = some s') : s'.Sound ∧ s'.object = s.object := by
  rw [SharedPtrs.share] at hshare
  cases hdata : p.data with
  | none =>
      rw [hdata] at hshare
      cases hshare
      exact ⟨hs.setHandle_null hh hdata (hp hdata), rfl⟩
  | some b =>
      simp only [hdata] at hshare
      obtain ⟨d, hb, rfl⟩ := Option.map_eq_some_iff.mp hshare
      obtain ⟨hmax, hstrong, hweak, hvalid⟩ := hf b d hdata hb
      obtain ⟨o, hptr, ho⟩ := hbelongs b hdata
      refine ⟨hs.refer hh ho hb ?_ rfl rfl rfl ?_ hweak hvalid, rfl⟩
      · rw [← hdata, ← hptr]
        rfl
      · rw [hstrong]
        exact toNat_add_one hmax

theorem Sound.allocate (hs : s.Sound) (hh : s.dataOf h = none) (ho : s.object o = .alive none)
    (hnew : ∀ g, s.ptrOf g ≠ some o) : (s.allocate h o).Sound := by
  have hfresh := hs.counted.fresh _ le_rfl
  have hdata : (s.allocate h o).dataOf = Function.update s.dataOf h (some s.nextBlock) :=
    dataOf_update (p := some ⟨some s.nextBlock, some o⟩) rfl
  have hptr : (s.allocate h o).ptrOf = Function.update s.ptrOf h (some o) :=
    ptrOf_update (p := some ⟨some s.nextBlock, some o⟩) rfl
  refine ⟨?_, ?_⟩
  · refine hs.counted.update hdata rfl (Nat.le_succ _) (Nat.lt_succ_self _) (fun c hc => ?_)
      (fun c hc => (Option.some.inj hc).symm) ?_ ?_
    · rw [hh] at hc
      cases hc
    · rintro _ ⟨⟩
      rfl
    · rw [hh, hfresh, if_neg (Option.some_ne_none _).symm, if_pos rfl]
      rfl
  · refine hs.paired.extend (null_update hs.paired hdata hptr (by simp)) (fun c u hc => ?_)
      (not_belongs_of_new (fun c => by simp [ho]) hnew) rfl (fun _ _ => rfl) ?_ rfl rfl
    · rcases hc with ⟨g, hg, hg'⟩ | halive
      · rw [hdata] at hg
        rw [hptr] at hg'
        by_cases hgh : g = h
        · rw [hgh, Function.update_self] at hg hg'
          exact .inr ⟨(Option.some.inj hg).symm, (Option.some.inj hg').symm⟩
        · rw [Function.update_of_ne hgh] at hg hg'
          exact .inl (.inl ⟨g, hg, hg'⟩)
      · exact .inl (.inr halive)
    · change (s.object o).isAlive = true
      rw [ho]
      rfl

theorem Sound.moveFrom (hs : s.Sound) (hh : s.dataOf h = none) (hmove : s.moveFrom h g = some s') :
    s'.Sound ∧ s'.object = s.object := by
  obtain ⟨p, hp, rfl⟩ := Option.map_eq_some_iff.mp hmove
  have hpdata : s.dataOf g = p.data := by rw [dataOf, hp, Option.bind_some]
  have hpptr : s.ptrOf g = p.ptr := by rw [ptrOf, hp, Option.bind_some]
  have hdata : ((s.setHandle g (some {})).setHandle h (some p)).dataOf =
      Function.update (Function.update s.dataOf g none) h p.data := by
    rw [dataOf_update (s := s.setHandle g (some {})) (p := some p) rfl,
      dataOf_update (s := s) (t := s.setHandle g (some {})) (p := some {}) rfl]
    rfl
  have hptr : ((s.setHandle g (some {})).setHandle h (some p)).ptrOf =
      Function.update (Function.update s.ptrOf g none) h p.ptr := by
    rw [ptrOf_update (s := s.setHandle g (some {})) (p := some p) rfl,
      ptrOf_update (s := s) (t := s.setHandle g (some {})) (p := some {}) rfl]
    rfl
  refine ⟨⟨⟨?_, hs.counted.weak, fun b => ?_, hs.counted.fresh⟩, ?_⟩, rfl⟩
  · rw [hdata]
    exact (hs.counted.finite.update g none).update h p.data
  · rw [hdata]
    have hfirst := hs.counted.finite.count_update g none b
    have hsecond := (hs.counted.finite.update g none).count_update h p.data b
    have hhnone : Function.update s.dataOf g none h = none := by
      by_cases hhg : h = g
      · rw [hhg, Function.update_self]
      · rw [Function.update_of_ne hhg, hh]
    rw [hhnone] at hsecond
    rw [hpdata] at hfirst
    refine (hs.counted.counted b).trans ?_
    simp only [reduceCtorEq, if_false] at hfirst hsecond
    omega
  · refine hs.paired.of_le (fun k => ?_) (fun c u hc => ?_) le_rfl (fun _ => id)
      hs.paired.valid
    · rw [hdata, hptr]
      by_cases hkh : k = h
      · rw [hkh, Function.update_self, Function.update_self, ← hpdata, ← hpptr]
        exact hs.paired.null g
      · rw [Function.update_of_ne hkh, Function.update_of_ne hkh]
        by_cases hkg : k = g
        · rw [hkg, Function.update_self, Function.update_self]
          exact iff_of_true rfl rfl
        · rw [Function.update_of_ne hkg, Function.update_of_ne hkg]
          exact hs.paired.null k
    · rcases hc with ⟨k, hk, hk'⟩ | halive
      · rw [hdata] at hk
        rw [hptr] at hk'
        by_cases hkh : k = h
        · rw [hkh, Function.update_self] at hk hk'
          exact .inl ⟨g, hpdata.trans hk, hpptr.trans hk'⟩
        · rw [Function.update_of_ne hkh] at hk hk'
          by_cases hkg : k = g
          · rw [hkg, Function.update_self] at hk
            cases hk
          · rw [Function.update_of_ne hkg] at hk hk'
            exact .inl ⟨k, hk, hk'⟩
      · exact .inr halive

end

/-! ## Reset -/

/-- What a `Reset` leaves of the other handles, the blocks and the objects. -/
structure Resets [DecidableEq η] (s : SharedPtrs η ω) (h : η) (s' : SharedPtrs η ω) : Prop where
  handle : s'.handle = Function.update s.handle h (some {})
  next : s'.nextBlock = s.nextBlock
  others : ∀ b, s.dataOf h ≠ some b → s'.block b = s.block b
  block : ∀ b d', s'.block b = some d' → ∃ d, s.block b = some d ∧ d'.policy = d.policy ∧
    d'.valid = d.valid ∧ (s.dataOf h = some b →
      d'.strongCount.toNat + 1 = d.strongCount.toNat ∧ d'.strongCount ≠ 0)
  stays : s.Stays s'
  object : ∀ u, s'.object u = s.object u ∨ s.ptrOf h = some u ∧ s'.object u = .deleted
  last : ∀ b o d, s.dataOf h = some b → s.ptrOf h = some o → s.block b = some d →
    d.policy = .automatic → d.valid = true → s'.block b = none → s'.object o = .deleted

theorem Resets.dataOf [DecidableEq η] (h' : s.Resets h s') :
    s'.dataOf = Function.update s.dataOf h none := dataOf_update h'.handle

theorem Resets.ptrOf [DecidableEq η] (h' : s.Resets h s') :
    s'.ptrOf = Function.update s.ptrOf h none := ptrOf_update h'.handle

theorem toNat_sub_one {n : UInt16} (h : n ≠ 0) : (n - 1).toNat + 1 = n.toNat := by
  have hpos : 0 < n.toNat := Nat.pos_of_ne_zero fun hzero => h (UInt16.toNat_inj.mp hzero)
  have hle : (1 : UInt16) ≤ n := UInt16.le_iff_toNat_le.mpr hpos
  rw [UInt16.toNat_sub_of_le _ _ hle]
  exact Nat.sub_add_cancel hpos

/-- A handle lets go of its block, which stays with one reference less or goes. -/
theorem Sound.letGo [DecidableEq η] {x : Option SharedPtrDynamicData} (hs : s.Sound)
    (hh : s.dataOf h = some b) (hb : s.block b = some d)
    (hhandle : s'.handle = Function.update s.handle h (some {}))
    (hblock : s'.block = Function.update s.block b x) (hnext : s'.nextBlock = s.nextBlock)
    (hstrong : strong x + 1 = d.strongCount.toNat)
    (hx : ∀ e, x = some e → e.policy = d.policy ∧ e.valid = d.valid ∧
      e.weakCount = d.weakCount ∧ e.strongCount ≠ 0)
    (hobject : ∀ u, s'.object u = s.object u ∨
      s.Belongs b u ∧ x = none ∧ (s.object u).isAlive = true ∧ s'.object u = .deleted)
    (hlast : ∀ o, s.Belongs b o → x = none → d.policy = .automatic → d.valid = true →
      s'.object o = .deleted) :
    s'.Sound ∧ s.Resets h s' := by
  have hdata : s'.dataOf = Function.update s.dataOf h none := dataOf_update hhandle
  have hptr : s'.ptrOf = Function.update s.ptrOf h none := ptrOf_update hhandle
  refine ⟨⟨?_, ?_⟩, hhandle, hnext, fun c hc => ?_, fun c e he => ?_, fun u hpresent hgone => ?_,
    fun u => (hobject u).imp_right fun hu => ⟨(hs.paired.iff hu.1 h).mp hh, hu.2.2.2⟩,
    fun c o e hc ho he hpolicy hvalid hnone => ?_⟩
  · refine hs.counted.update hdata hblock hnext.ge (hnext ▸ hs.counted.lt hb) (fun c hc => ?_)
      (fun c hc => by cases hc) (fun e he => ?_) ?_
    · rw [hh] at hc
      exact (Option.some.inj hc).symm
    · rw [(hx e he).2.2.1]
      exact hs.counted.weak b d hb
    · rw [hb, if_pos hh, if_neg (Option.some_ne_none b).symm]
      exact hstrong
  · refine hs.paired.of_le (null_update hs.paired hdata hptr (iff_of_true rfl rfl))
      (fun c u => belongs_of_update hdata hptr (fun u c hu => ?_) (fun c u hc => by cases hc))
      hnext.ge (fun u hu => ?_) fun c u e hc he => ?_
    · rcases hobject u with heq | ⟨-, -, -, hdeleted⟩
      · rwa [heq] at hu
      · rw [hdeleted] at hu
        cases hu
    · rcases hobject u with heq | ⟨-, -, -, hdeleted⟩
      · rwa [heq] at hu
      · rw [hdeleted] at hu
        cases hu
    · rw [hblock] at he
      rcases hobject u with heq | ⟨hbu, hnone, -, -⟩
      · rw [heq]
        by_cases hcb : c = b
        · rw [hcb, Function.update_self] at he
          rw [(hx e he).2.1]
          exact hs.paired.valid b u d (hcb ▸ hc) hb
        · rw [Function.update_of_ne hcb] at he
          exact hs.paired.valid c u e hc he
      · rw [hs.paired.right c b u hc hbu, Function.update_self, hnone] at he
        cases he
  · rw [hblock]
    refine Function.update_of_ne ?_ _ _
    rintro rfl
    exact hc hh
  · rw [hblock] at he
    by_cases hcb : c = b
    · rw [hcb, Function.update_self] at he
      obtain ⟨hpolicy, hvalid, -, hzero⟩ := hx e he
      refine ⟨d, hcb ▸ hb, hpolicy, hvalid, fun _ => ⟨?_, hzero⟩⟩
      rw [he] at hstrong
      exact hstrong
    · rw [Function.update_of_ne hcb] at he
      refine ⟨e, he, rfl, rfl, fun hc => ?_⟩
      rw [hh] at hc
      exact absurd (Option.some.inj hc).symm hcb
  · rcases hobject u with heq | ⟨-, -, halive, -⟩
    · exact heq
    · rw [hgone] at halive
      cases halive
  · rw [hh] at hc
    cases hc
    rw [hb] at he
    cases he
    rw [hblock, Function.update_self] at hnone
    exact hlast o (.inl ⟨h, hh, ho⟩) hnone hpolicy hvalid

theorem delete_of_isAlive [DecidableEq ω] (ho : (s.object o).isAlive = true) (x : PointedObject) :
    s.delete (some o) x = some (s.setObject o x) := by
  rw [delete]
  cases hobject : s.object o with
  | alive _ => rfl
  | absent | deleted | released =>
      rw [hobject] at ho
      cases ho

/-- What the last handle leaves of the object. -/
def objectAfter [DecidableEq ω] (s : SharedPtrs η ω) (o : ω) (d : SharedPtrDynamicData) :
    ω → PointedObject :=
  if d.policy = .automatic ∧ d.valid = true then Function.update s.object o .deleted else s.object

variable [DecidableEq ω]

theorem resetLast_eq (hweak : d.weakCount = 0) (ho : d.valid = (s.object o).isAlive) :
    s.resetLast (some o) b d =
      some ⟨s.handle, Function.update s.block b none, s.nextBlock, s.objectAfter o d⟩ := by
  rw [resetLast, objectAfter]
  by_cases hdelete : d.policy = .automatic ∧ d.valid = true
  · have halive : ((s.setBlock b (some { d with valid := false })).object o).isAlive = true :=
      ho.symm.trans hdelete.2
    rw [if_pos hdelete, if_pos hdelete, delete_of_isAlive halive, Option.map_some, if_pos hweak,
      setObject, setBlock, setBlock]
    exact congrArg some (congrArg (SharedPtrs.mk _ · _ _) (Function.update_idem ..))
  · rw [if_neg hdelete, if_neg hdelete, Option.map_some, if_pos hweak]
    rfl

theorem objectAfter_cases (hb : s.Belongs b o) (ho : d.valid = (s.object o).isAlive) (u : ω) :
    s.objectAfter o d u = s.object u ∨
      s.Belongs b u ∧ (s.object u).isAlive = true ∧ s.objectAfter o d u = .deleted := by
  rw [objectAfter]
  split
  · rename_i hdelete
    by_cases huo : u = o
    · right
      rw [huo, Function.update_self]
      exact ⟨hb, ho.symm.trans hdelete.2, rfl⟩
    · exact .inl (Function.update_of_ne huo _ _)
  · exact .inl rfl

theorem Sound.create (hs : s.Sound) {derived : Bool} {policy : SharedPtrPolicy}
    (ho : s.object o = .absent) :
    (s.create derived o policy).Sound ∧ s.Stays (s.create derived o policy) := by
  have hnone : ∀ c, ¬s.Belongs c o := fun c hc => (hs.paired.known c o hc).2 ho
  have hobject : ∀ x u, u ≠ o → Function.update s.object o x u = s.object u := fun x u hu =>
    Function.update_of_ne hu _ _
  have hne : ∀ u, s.object u ≠ .absent → u ≠ o := by
    rintro u hu rfl
    exact hu ho
  cases derived with
  | false =>
      refine ⟨⟨hs.counted.congr rfl rfl rfl, ?_⟩, fun u hu _ => hobject _ u (hne u hu)⟩
      refine hs.paired.of_le hs.paired.null (fun c u hc => ?_) le_rfl (fun u hu => ?_)
        fun c u d hc hd => ?_
      · rcases hc with hc | halive
        · exact .inl hc
        · right
          by_cases huo : u = o
          · change Function.update s.object o (.alive none) u = _ at halive
            rw [huo, Function.update_self] at halive
            cases halive
          · exact (hobject _ u huo).symm.trans halive
      · by_cases huo : u = o
        · rw [huo, ho]
        · exact (hobject _ u huo).symm.trans hu
      · have hu := hne u (hs.paired.known c u hc).2
        rw [hs.paired.valid c u d hc hd]
        exact congrArg _ (hobject (.alive none) u hu).symm
  | true =>
      refine ⟨⟨?_, ?_⟩, fun u hu _ => hobject _ u (hne u hu)⟩
      · refine hs.counted.of_block (b := s.nextBlock) hs.counted.finite (fun _ _ => rfl) rfl
          (Nat.le_succ _) (Nat.lt_succ_self _) ?_ ?_
        · rintro _ ⟨⟩
          rfl
        · refine Eq.trans ?_ (hs.counted.counted s.nextBlock)
          rw [hs.counted.fresh _ le_rfl]
          rfl
      · refine hs.paired.extend hs.paired.null (fun c u hc => ?_) hnone rfl (hobject _) ?_ rfl rfl
        · rcases hc with hc | halive
          · exact .inl (.inl hc)
          · change Function.update s.object o (.alive (some s.nextBlock)) u = _ at halive
            by_cases huo : u = o
            · rw [huo, Function.update_self] at halive
              cases halive
              exact .inr ⟨rfl, huo⟩
            · exact .inl (.inr ((hobject _ u huo).symm.trans halive))
        · change (Function.update s.object o (.alive (some s.nextBlock)) o).isAlive = true
          rw [Function.update_self]
          rfl

/-- `AutoFree` keeps the counts, and its block is no longer valid. -/
theorem Sound.autoFree {a : Bool} (hs : s.Sound)
    (hbelongs : ∀ b, p.data = some b → ∃ o, p.ptr = some o ∧ s.Belongs b o)
    (hfree : s.autoFree p = some (s', a)) : s'.Sound ∧ s.Stays s' := by
  rw [SharedPtrs.autoFree] at hfree
  cases hdata : p.data with
  | none =>
      rw [hdata] at hfree
      cases hfree
      exact ⟨hs, .refl s⟩
  | some b =>
      simp only [hdata] at hfree
      obtain ⟨d, hb, hfree⟩ := Option.bind_eq_some_iff.mp hfree
      obtain ⟨o, hptr, ho⟩ := hbelongs b hdata
      split at hfree
      · rename_i hvalid
        have halive : (s.object o).isAlive = true := (hs.paired.valid b o d ho hb).symm.trans hvalid
        have hdelete := delete_of_isAlive
          (s := s.setBlock b (some { d with deallocated := true })) halive .released
        rw [hptr, hdelete] at hfree
        cases hfree
        have hobject : ∀ u, u ≠ o → Function.update s.object o .released u = s.object u :=
          fun u hu => Function.update_of_ne hu _ _
        refine ⟨⟨?_, ?_⟩, fun u _ hgone => hobject u ?_⟩
        · refine hs.counted.of_block (b := b) hs.counted.finite (fun _ _ => rfl)
            (Function.update_idem ..) le_rfl (hs.counted.lt hb) ?_ ?_
          · rintro _ ⟨⟩
            exact hs.counted.weak b d hb
          · refine Eq.trans ?_ (hs.counted.counted b)
            rw [hb]
            rfl
        · refine hs.paired.of_le hs.paired.null (fun c u hc => ?_) le_rfl (fun u hu => ?_)
            fun c u e hc he => ?_
          · refine hc.imp_right fun halive' => ?_
            by_cases huo : u = o
            · change Function.update s.object o .released u = _ at halive'
              rw [huo, Function.update_self] at halive'
              cases halive'
            · exact (hobject u huo).symm.trans halive'
          · by_cases huo : u = o
            · change Function.update s.object o .released u = _ at hu
              rw [huo, Function.update_self] at hu
              cases hu
            · exact (hobject u huo).symm.trans hu
          · change Function.update (Function.update s.block b _) b _ c = _ at he
            change _ = (Function.update s.object o .released u).isAlive
            by_cases hcb : c = b
            · rw [hcb, Function.update_self] at he
              cases he
              rw [hs.paired.left b u o (hcb ▸ hc) ho, Function.update_self]
              rfl
            · rw [Function.update_of_ne hcb, Function.update_of_ne hcb] at he
              rw [hobject u]
              · exact hs.paired.valid c u e hc he
              · rintro rfl
                exact hcb (hs.paired.right c b u hc ho)
        · rintro rfl
          rw [hgone] at halive
          cases halive
      · cases hfree
        exact ⟨hs, .refl s⟩

variable [DecidableEq η]

/-- A `Reset` has a meaning, and keeps the counts and pairs. -/
theorem Sound.reset (hs : s.Sound) (hp : s.handle h = some p) :
    ∃ s', s.reset h = some s' ∧ s'.Sound ∧ s.Resets h s' := by
  simp only [SharedPtrs.reset, hp, Option.bind_some]
  have hh : s.dataOf h = p.data := by rw [dataOf, hp, Option.bind_some]
  cases hdata : p.data with
  | none =>
      rw [hdata] at hh
      refine ⟨_, rfl, hs.setHandle_null hh rfl rfl, ⟨rfl, rfl, fun _ _ => rfl, fun c e he => ?_,
        .of_eq rfl, fun _ => .inl rfl, fun c o e hc => ?_⟩⟩
      · refine ⟨e, he, rfl, rfl, fun hc => ?_⟩
        rw [hh] at hc
        cases hc
      · rw [hh] at hc
        cases hc
  | some b =>
      rw [hdata] at hh
      obtain ⟨d, hb, hzero⟩ := hs.counted.exists_block hh
      obtain ⟨o, ho, hbelongs⟩ := hs.paired.exists_belongs hh
      have hptr : p.ptr = some o := by
        rw [ptrOf, hp, Option.bind_some] at ho
        exact ho
      simp only [hb, Option.bind_some]
      split
      · rename_i hone
        have hvalid := hs.paired.valid b o d hbelongs hb
        rw [hptr]
        refine ⟨_, resetLast_eq (hs.counted.weak b d hb) hvalid, ?_⟩
        refine hs.letGo hh hb rfl rfl rfl (by rw [hone]; rfl) (fun e he => by cases he)
          (fun u => ?_) fun u hu _ hpolicy hvalid => ?_
        · exact (objectAfter_cases hbelongs hvalid u).imp_right fun hu => ⟨hu.1, rfl, hu.2⟩
        · change s.objectAfter o d u = .deleted
          rw [hs.paired.left b u o hu hbelongs, objectAfter, if_pos ⟨hpolicy, hvalid⟩,
            Function.update_self]
      · rename_i hone
        refine ⟨_, rfl, hs.letGo hh hb rfl rfl rfl (toNat_sub_one hzero) ?_ (fun u => .inl rfl)
          fun _ _ hnone => by cases hnone⟩
        rintro _ ⟨⟩
        refine ⟨rfl, rfl, rfl, fun hpred => hone (UInt16.toNat_inj.mp ?_)⟩
        have hsub := toNat_sub_one hzero
        change d.strongCount - 1 = 0 at hpred
        rw [hpred] at hsub
        exact hsub.symm

end

end SharedPtrs

end SRCommon
