import SRCommon.Types.SharedPtrRuns

/-!
# Automatic ownership

Objects whose class does not derive from `SharedPtr`, without `AutoFree`: the
last handle deletes the object and the block, and every step has a meaning, so
that nothing is deleted twice.
-/

namespace SRCommon

namespace SharedPtrs

section

variable {η ω : Type} {s s' s'' : SharedPtrs η ω} {h g : η} {b : ℕ} {o : ω}
variable {d : SharedPtrDynamicData} {p : SharedPtr ω}

/-- The handles of the call are there, or not yet, and nothing is freed by hand. -/
def WellFormed (s : SharedPtrs η ω) : SharedPtrCall η ω → Prop
  | .create o _ => s.object o = .absent
  | .construct h _ => s.handle h = none
  | .copy h g | .move h g => s.handle h = none ∧ s.handle g ≠ none
  | .copyAssign h g | .moveAssign h g => s.handle h ≠ none ∧ s.handle g ≠ none
  | .assign h _ | .reset h | .destroy h => s.handle h ≠ none
  | .autoFree _ | .autoFreeThis _ => False

/-- Every block is valid and has a reference. -/
def Owned (s : SharedPtrs η ω) : Prop :=
  ∀ b d, s.block b = some d → d.policy = .automatic ∧ d.valid = true ∧ d.strongCount ≠ 0

/-- An object that the last handle leaves is deleted, and what is gone does not come back. -/
structure Frees (s s' : SharedPtrs η ω) : Prop where
  stays : s.Stays s'
  deletes : ∀ o, (∃ h, s.ptrOf h = some o) → (∃ h, s'.ptrOf h = some o) ∨ s'.object o = .deleted
  next : s.nextBlock ≤ s'.nextBlock
  blocks : ∀ b < s.nextBlock, s.block b = none → s'.block b = none

/-- What is true of every step. -/
structure OwnsExactly (s : SharedPtrs η ω) (call : SharedPtrCall η ω) (s' : SharedPtrs η ω) :
    Prop where
  counted : ∀ b d, s'.block b = some d →
    d.strongCount.toNat = References.count s'.dataOf b ∧ ∃ h, s'.dataOf h = some b
  referred : ∀ h b, s'.dataOf h = some b → ∃ d o, s'.block b = some d ∧
    s'.ptrOf h = some o ∧ (s'.object o).isAlive = true
  frees : s.Frees s'

theorem Frees.refl (s : SharedPtrs η ω) : s.Frees s :=
  ⟨.refl s, fun _ => .inl, le_rfl, fun _ _ => id⟩

theorem Frees.trans (h : s.Frees s') (h' : s'.Frees s'') : s.Frees s'' where
  stays := h.stays.trans h'.stays
  deletes o ho := by
    rcases h.deletes o ho with ho | ho
    · exact h'.deletes o ho
    · right
      rw [← ho]
      refine h'.stays o ?_ ?_ <;> rw [ho]
      · exact PointedObject.noConfusion
      · rfl
  next := h.next.trans h'.next
  blocks b hb hnone := h'.blocks b (hb.trans_le h.next) (h.blocks b hb hnone)

theorem Sound.counted_of_owned (hs : s.Sound) (howned : s.Owned) (hb : s.block b = some d) :
    d.strongCount.toNat = References.count s.dataOf b ∧ ∃ h, s.dataOf h = some b := by
  have hcounted := hs.counted.counted b
  rw [hb] at hcounted
  refine ⟨hcounted, References.exists_of_count_pos (hcounted ▸ Nat.pos_of_ne_zero fun hzero => ?_)⟩
  exact (howned b d hb).2.2 (UInt16.toNat_inj.mp hzero)

theorem Sound.referred_of_owned (hs : s.Sound) (howned : s.Owned) (hb : s.dataOf h = some b) :
    ∃ d o, s.block b = some d ∧ s.ptrOf h = some o ∧ (s.object o).isAlive = true := by
  obtain ⟨d, hd, -⟩ := hs.counted.exists_block hb
  obtain ⟨o, ho, hbelongs⟩ := hs.paired.exists_belongs hb
  refine ⟨d, o, hd, ho, ?_⟩
  rw [← hs.paired.valid b o d hbelongs hd]
  exact (howned b d hd).2.1

theorem Owned.update {x : SharedPtrDynamicData} (howned : s.Owned)
    (hblock : s'.block = Function.update s.block b (some x))
    (hx : x.policy = .automatic ∧ x.valid = true ∧ x.strongCount ≠ 0) : s'.Owned := by
  intro c e he
  rw [hblock] at he
  by_cases hcb : c = b
  · rw [hcb, Function.update_self] at he
    cases he
    exact hx
  · rw [Function.update_of_ne hcb] at he
    exact howned c e he

section

variable [DecidableEq η]

/-- A handle that referred to nothing leaves no object when it changes. -/
theorem Frees.of_handle {x : Option (SharedPtr ω)}
    (hhandle : s'.handle = Function.update s.handle h x) (hh : s.ptrOf h = none)
    (hobject : s'.object = s.object) (hnext : s.nextBlock ≤ s'.nextBlock)
    (hblocks : ∀ b < s.nextBlock, s.block b = none → s'.block b = none) : s.Frees s' where
  stays := .of_eq hobject
  deletes := by
    rintro o ⟨g, hg⟩
    refine .inl ⟨g, ?_⟩
    rw [ptrOf_update hhandle, Function.update_of_ne]
    · exact hg
    · rintro rfl
      rw [hh] at hg
      cases hg
  next := hnext
  blocks := hblocks

theorem strongCount_add_one_ne_zero {n : UInt16} (h : n ≠ 65535) : n + 1 ≠ 0 := by
  intro hzero
  have hsucc := toNat_add_one h
  rw [hzero] at hsucc
  exact Nat.succ_ne_zero _ hsucc.symm

theorem Resets.owned (hr : s.Resets h s') (howned : s.Owned) : s'.Owned := by
  intro b d' hd'
  obtain ⟨d, hd, hpolicy, hvalid, hless⟩ := hr.block b d' hd'
  obtain ⟨hautomatic, hd_valid, hzero⟩ := howned b d hd
  refine ⟨hpolicy.trans hautomatic, hvalid.trans hd_valid, ?_⟩
  by_cases hdata : s.dataOf h = some b
  · exact (hless hdata).2
  · rw [hr.others b hdata, hd] at hd'
    cases hd'
    exact hzero

/-- A `Reset` deletes the object that no other handle refers to. -/
theorem Sound.frees_reset (hs : s.Sound) (hs' : s'.Sound) (howned : s.Owned)
    (hr : s.Resets h s') : s.Frees s' where
  stays := hr.stays
  deletes := by
    rintro o ⟨g, hg⟩
    by_cases hgh : g = h
    · rw [hgh] at hg
      cases hdata : s.dataOf h with
      | none =>
          rw [(hs.paired.null h).mp hdata] at hg
          cases hg
      | some b =>
          obtain ⟨d, hd, -⟩ := hs.counted.exists_block hdata
          obtain ⟨hautomatic, hvalid, -⟩ := howned b d hd
          cases hb : s'.block b with
          | none => exact .inr (hr.last b o d hdata hg hd hautomatic hvalid hb)
          | some d' =>
              obtain ⟨-, k, hk⟩ := hs'.counted_of_owned (hr.owned howned) hb
              rw [hr.dataOf] at hk
              by_cases hkh : k = h
              · rw [hkh, Function.update_self] at hk
                cases hk
              · rw [Function.update_of_ne hkh] at hk
                refine .inl ⟨k, ?_⟩
                rw [hr.ptrOf, Function.update_of_ne hkh]
                exact (hs.paired.iff (.inl ⟨h, hdata, hg⟩) k).mp hk
    · refine .inl ⟨g, ?_⟩
      rw [hr.ptrOf, Function.update_of_ne hgh]
      exact hg
  next := hr.next.ge
  blocks b _ hnone := by
    cases hb : s'.block b with
    | none => rfl
    | some d' =>
        obtain ⟨d, hd, -⟩ := hr.block b d' hb
        rw [hnone] at hd
        cases hd

theorem owned_share {f : SharedPtrDynamicData → SharedPtrDynamicData} (hs : s.Sound)
    (howned : s.Owned) (hh : s.dataOf h = none) (hp : s.handle g = some p)
    (hf : ∀ b d, p.data = some b → s.block b = some d → d.strongCount ≠ 65535 ∧
      (f d).policy = d.policy ∧ (f d).valid = d.valid ∧ (f d).strongCount = d.strongCount) :
    ∃ s', s.share h p f = some s' ∧ s'.Owned ∧ s.Frees s' := by
  have hptr := (hs.paired.null h).mp hh
  cases hdata : p.data with
  | none =>
      refine ⟨s.setHandle h (some p), ?_, howned, .of_handle rfl hptr rfl le_rfl fun _ _ => id⟩
      rw [share, hdata]
  | some b =>
      obtain ⟨d, hb, -⟩ := hs.counted.exists_block ((dataOf_some hp).trans hdata)
      obtain ⟨hmax, hpolicy, hvalid, hstrong⟩ := hf b d hdata hb
      obtain ⟨hautomatic, hd_valid, -⟩ := howned b d hb
      refine ⟨_, by rw [share, hdata]; exact congrArg (Option.map _) hb, ?_, ?_⟩
      · refine howned.update rfl ⟨hpolicy.trans hautomatic, hvalid.trans hd_valid, ?_⟩
        rw [hstrong]
        exact strongCount_add_one_ne_zero hmax
      · refine .of_handle rfl hptr rfl le_rfl fun c _ hnone => ?_
        refine (Function.update_of_ne ?_ _ _).trans hnone
        rintro rfl
        rw [hnone] at hb
        cases hb

theorem owned_allocate (hs : s.Sound) (howned : s.Owned) (hh : s.dataOf h = none) (o : ω) :
    (s.allocate h o).Owned ∧ s.Frees (s.allocate h o) := by
  refine ⟨howned.update rfl ⟨rfl, rfl, by decide⟩, ?_⟩
  refine .of_handle rfl ((hs.paired.null h).mp hh) rfl (Nat.le_succ _) fun b hb hnone => ?_
  exact (Function.update_of_ne hb.ne _ _).trans hnone

theorem owned_moveFrom (hs : s.Sound) (howned : s.Owned) (hh : s.dataOf h = none)
    (hp : s.handle g = some p) :
    ∃ s', s.moveFrom h g = some s' ∧ s'.Owned ∧ s.Frees s' := by
  refine ⟨(s.setHandle g (some {})).setHandle h (some p), ?_, howned, .of_eq rfl, ?_, le_rfl,
    fun _ _ => id⟩
  · rw [moveFrom, hp, Option.map_some]
  rintro o ⟨k, hk⟩
  left
  have hkh : k ≠ h := by
    rintro rfl
    rw [(hs.paired.null k).mp hh] at hk
    cases hk
  have hptr : ((s.setHandle g (some {})).setHandle h (some p)).ptrOf =
      Function.update (Function.update s.ptrOf g none) h p.ptr := by
    rw [ptrOf_update (s := s.setHandle g (some {})) (p := some p) rfl,
      ptrOf_update (s := s) (t := s.setHandle g (some {})) (p := some {}) rfl]
    rfl
  rw [hptr]
  by_cases hkg : k = g
  · refine ⟨h, ?_⟩
    rw [Function.update_self, ← ptrOf_some hp, ← hkg, hk]
  · refine ⟨k, ?_⟩
    rw [Function.update_of_ne hkh, Function.update_of_ne hkg, hk]

theorem owned_construct (hs : s.Sound) (howned : s.Owned) (hh : s.handle h = none)
    (ptr : Option ω) : ∃ s', s.construct false h ptr = some s' ∧ s'.Owned ∧ s.Frees s' := by
  have hnone := dataOf_none hh
  have hfrees : s.Frees (s.setHandle h (some {})) :=
    .of_handle rfl ((hs.paired.null h).mp hnone) rfl le_rfl fun _ _ => id
  cases ptr with
  | none => exact ⟨_, rfl, howned, hfrees⟩
  | some o =>
      have hnull := hs.setHandle_null (p := some {}) hnone rfl rfl
      have hdata : (s.setHandle h (some {})).dataOf h = none := by
        rw [dataOf_update (s := s) (p := some {}) rfl, Function.update_self]
        rfl
      obtain ⟨howned', hfrees'⟩ := owned_allocate hnull howned hdata o
      exact ⟨_, rfl, howned', hfrees.trans hfrees'⟩

theorem Resets.handle_ne_none (hr : s.Resets h s') (hg : s.handle g ≠ none) :
    s'.handle g ≠ none := by
  rw [hr.handle]
  by_cases hgh : g = h
  · rw [hgh, Function.update_self]
    exact Option.some_ne_none _
  · rw [Function.update_of_ne hgh]
    exact hg

variable [DecidableEq ω]

theorem owned_reset (hs : s.Sound) (howned : s.Owned) (hh : s.handle h ≠ none) :
    ∃ s', s.reset h = some s' ∧ s'.Sound ∧ s.Resets h s' ∧ s'.Owned ∧ s.Frees s' := by
  obtain ⟨p, hp⟩ := Option.ne_none_iff_exists'.mp hh
  obtain ⟨s', hreset, hs', hr⟩ := hs.reset hp
  exact ⟨s', hreset, hs', hr, hr.owned howned, hs.frees_reset hs' howned hr⟩

theorem owned_copyAssign (hs : s.Sound) (howned : s.Owned) (hh : s.handle h ≠ none)
    (hg : s.handle g ≠ none) (hfits : s.Fits (.copyAssign h g)) :
    ∃ s', s.copyAssign h g = some s' ∧ s'.Owned ∧ s.Frees s' := by
  by_cases hhg : h = g
  · obtain ⟨p, hp⟩ := Option.ne_none_iff_exists'.mp hh
    refine ⟨s, ?_, howned, .refl s⟩
    rw [copyAssign, if_pos hhg, hp, Option.map_some]
  obtain ⟨s₁, hreset, hs₁, hr, howned₁, hfrees⟩ := owned_reset hs howned hh
  obtain ⟨p, hp⟩ := Option.ne_none_iff_exists'.mp (hr.handle_ne_none hg)
  have hgdata : s.dataOf g = p.data :=
    dataOf_some ((hr.handle_ne (Ne.symm hhg)).symm.trans hp)
  have hf : ∀ b d, p.data = some b → s₁.block b = some d → d.strongCount ≠ 65535 ∧
      d.policy = d.policy ∧ p.ptr.isSome = d.valid ∧ d.strongCount = d.strongCount := by
    intro b d hb hd
    obtain ⟨o, ho, -⟩ := hs₁.handle_belongs hp hb
    refine ⟨hr.fits hfits hhg (hgdata.trans hb) hd, rfl, ?_, rfl⟩
    rw [(howned₁ b d hd).2.1, ho]
    rfl
  obtain ⟨s', hshare, howned', hfrees'⟩ := owned_share
    (f := fun d => { d with valid := p.ptr.isSome }) hs₁ howned₁ hr.dataOf_self hp hf
  refine ⟨s', ?_, howned', hfrees.trans hfrees'⟩
  rw [copyAssign, if_neg hhg, hreset, Option.bind_some, hp, Option.bind_some, hshare]

theorem owned_assign (hs : s.Sound) (howned : s.Owned) (hh : s.handle h ≠ none)
    (ptr : Option ω) : ∃ s', s.assign false h ptr = some s' ∧ s'.Owned ∧ s.Frees s' := by
  obtain ⟨s₁, hreset, hs₁, hr, howned₁, hfrees⟩ := owned_reset hs howned hh
  cases ptr with
  | none => exact ⟨s₁, hreset, howned₁, hfrees⟩
  | some o =>
      obtain ⟨p, hp⟩ := Option.ne_none_iff_exists'.mp hh
      rw [assign, hp, Option.bind_some]
      split
      · exact ⟨s, rfl, howned, .refl s⟩
      · obtain ⟨howned', hfrees'⟩ := owned_allocate hs₁ howned₁ hr.dataOf_self o
        refine ⟨_, ?_, howned', hfrees.trans hfrees'⟩
        rw [hreset, Option.bind_some]
        rfl

theorem owned_destroy (hs : s.Sound) (howned : s.Owned) (hh : s.handle h ≠ none) :
    ∃ s', s.destroy h = some s' ∧ s'.Owned ∧ s.Frees s' := by
  have hlast : ∀ {s₁ : SharedPtrs η ω}, s₁.Sound → s₁.dataOf h = none →
      s₁.Frees (s₁.setHandle h none) := fun hs₁ hnone =>
    .of_handle rfl ((hs₁.paired.null h).mp hnone) rfl le_rfl fun _ _ => id
  obtain ⟨s₁, hreset, hs₁, hr, howned₁, hfrees⟩ := owned_reset hs howned hh
  obtain ⟨p, hp⟩ := Option.ne_none_iff_exists'.mp hh
  rw [destroy, hp, Option.bind_some]
  split
  · rename_i hdata
    exact ⟨_, rfl, howned, hlast hs ((dataOf_some hp).trans hdata)⟩
  · refine ⟨s₁.setHandle h none, ?_, howned₁, hfrees.trans (hlast hs₁ hr.dataOf_self)⟩
    rw [hreset, Option.map_some]

/-- A step of automatic ownership has a meaning. -/
theorem owned_step (hs : s.Sound) (howned : s.Owned) {call : SharedPtrCall η ω}
    (hwell : s.WellFormed call) (hfits : s.Fits call) :
    ∃ r, s.step false call = some r ∧ r.1.Owned ∧ s.Frees r.1 := by
  have hmap : ∀ {m : Option (SharedPtrs η ω)}, (∃ s', m = some s' ∧ s'.Owned ∧ s.Frees s') →
      ∃ r, m.map (·, false) = some r ∧ r.1.Owned ∧ s.Frees r.1 := by
    rintro _ ⟨s', rfl, hs'⟩
    exact ⟨(s', false), rfl, hs'⟩
  cases call with
  | create o policy =>
      have hstays : s.Stays (s.create false o policy) := (hs.create hwell).2
      exact ⟨(s.create false o policy, false), if_pos hwell, howned, hstays, fun _ => .inl, le_rfl,
        fun _ _ => id⟩
  | construct h ptr =>
      change s.handle h = none at hwell
      rw [step, if_pos hwell]
      exact hmap (owned_construct hs howned hwell ptr)
  | copy h g =>
      obtain ⟨p, hp⟩ := Option.ne_none_iff_exists'.mp hwell.2
      rw [step, if_pos hwell.1, hp, Option.bind_some]
      refine hmap (owned_share hs howned (dataOf_none hwell.1) hp fun b d hb hd => ?_)
      exact ⟨hfits b ((dataOf_some hp).trans hb) d hd, rfl, rfl, rfl⟩
  | move h g =>
      obtain ⟨p, hp⟩ := Option.ne_none_iff_exists'.mp hwell.2
      rw [step, if_pos hwell.1]
      exact hmap (owned_moveFrom hs howned (dataOf_none hwell.1) hp)
  | copyAssign h g => exact hmap (owned_copyAssign hs howned hwell.1 hwell.2 hfits)
  | moveAssign h g =>
      obtain ⟨s₁, hreset, hs₁, hr, howned₁, hfrees⟩ := owned_reset hs howned hwell.1
      obtain ⟨p, hp⟩ := Option.ne_none_iff_exists'.mp (hr.handle_ne_none hwell.2)
      obtain ⟨s', hmove, howned', hfrees'⟩ := owned_moveFrom hs₁ howned₁ hr.dataOf_self hp
      refine hmap ⟨s', ?_, howned', hfrees.trans hfrees'⟩
      rw [hreset, Option.bind_some, hmove]
  | assign h ptr => exact hmap (owned_assign hs howned hwell ptr)
  | reset h =>
      obtain ⟨s₁, hreset, -, -, howned₁, hfrees⟩ := owned_reset hs howned hwell
      exact hmap ⟨s₁, hreset, howned₁, hfrees⟩
  | autoFree h => exact hwell.elim
  | autoFreeThis o => exact hwell.elim
  | destroy h => exact hmap (owned_destroy hs howned hwell)

/-- A run of automatic ownership with at most 65535 handles to an object, to which pointers are
handed over once. -/
structure OwnsWithin (s : SharedPtrs η ω) (call : SharedPtrCall η ω) : Prop where
  wellFormed : s.WellFormed call
  fits : s.Fits call
  handsOver : HandsOver false s call

/-- Handles `0` to `n - 1` to one object. -/
def copied (n : ℕ) : SharedPtrs ℕ Unit where
  handle := fun h => if h < n then some ⟨some 0, some ()⟩ else none
  block := fun b =>
    if b = 0 then some { strongCount := UInt16.ofNat n, valid := true, policy := .automatic }
    else none
  nextBlock := 1
  object := fun _ => .alive none

theorem handle_copied (n : ℕ) : (copied (n + 1)).handle =
    Function.update (copied n).handle n (some ⟨some 0, some ()⟩) := by
  funext h
  by_cases hn : h = n
  · rw [hn, Function.update_self]
    exact if_pos (Nat.lt_succ_self n)
  · rw [Function.update_of_ne hn]
    exact if_congr (by omega) rfl rfl

theorem handle_copied_of_lt {n h : ℕ} (hn : h < n) :
    (copied n).handle h = some ⟨some 0, some ()⟩ := if_pos hn

theorem handle_copied_of_not_lt {n h : ℕ} (hn : ¬h < n) : (copied n).handle h = none := if_neg hn

theorem construct_copied :
    (({} : SharedPtrs ℕ Unit).create false () .automatic).construct false 0 (some ()) =
      some (copied 1) := by
  have hblock : (copied 1).block = Function.update (fun _ => none) 0
      (some { strongCount := 1, valid := true, policy := .automatic }) := by
    funext b
    by_cases hb : b = 0
    · rw [hb, Function.update_self]
      rfl
    · rw [Function.update_of_ne hb]
      exact if_neg hb
  have hhandle : (copied 1).handle = Function.update (Function.update (fun _ => none) 0
      (some {})) 0 (some ⟨some 0, some ()⟩) := by
    rw [handle_copied, Function.update_idem]
    rfl
  refine congrArg some (SharedPtrs.ext hhandle.symm hblock.symm rfl ?_)
  funext ⟨⟩
  rfl

theorem step_copied {n : ℕ} (hn : 0 < n) :
    (copied n).step false (.copy n 0) = some (copied (n + 1), false) := by
  have hblock : (copied (n + 1)).block = Function.update (copied n).block 0
      (some { strongCount := UInt16.ofNat n + 1, valid := true, policy := .automatic }) := by
    funext b
    by_cases hb : b = 0
    · rw [hb, Function.update_self, ← UInt16.ofNat_one, ← UInt16.ofNat_add]
      rfl
    · rw [Function.update_of_ne hb]
      exact (if_neg hb).trans (if_neg hb).symm
  rw [step, if_pos (handle_copied_of_not_lt (Nat.lt_irrefl n)), handle_copied_of_lt hn]
  refine congrArg some (Prod.ext (SharedPtrs.ext (handle_copied n).symm hblock.symm rfl rfl) rfl)

theorem run_copied (n m : ℕ) (hn : 0 < n) :
    Steps.Along (fun s => s.step false) (fun s call => s.WellFormed call ∧ HandsOver false s call)
        (copied n) ((List.range' n m).map (.copy · 0)) ∧
      ∃ os, Steps.run (fun s => s.step false) (copied n) ((List.range' n m).map (.copy · 0)) =
        some (copied (n + m), os) := by
  induction m generalizing n with
  | zero => exact ⟨trivial, [], rfl⟩
  | succ m ih =>
      obtain ⟨halong, os, hrun⟩ := ih (n + 1) (Nat.succ_pos n)
      have hstep := step_copied hn
      have hwell : (copied n).WellFormed (.copy n 0) := by
        refine ⟨handle_copied_of_not_lt (Nat.lt_irrefl n), ?_⟩
        rw [handle_copied_of_lt hn]
        exact Option.some_ne_none _
      rw [List.range'_succ, List.map_cons]
      refine ⟨⟨⟨hwell, trivial⟩, fun r hr => ?_⟩, false :: os, ?_⟩
      · cases hstep.symm.trans hr
        exact halong
      · rw [Steps.run_cons hstep, hrun, Option.map_some, Nat.add_assoc, Nat.add_comm 1 m]

/-- With 65536 handles the count is zero. -/
theorem not_ownsExactly_copied (s : SharedPtrs ℕ Unit) (call : SharedPtrCall ℕ Unit) :
    ¬s.OwnsExactly call (copied 65536) := by
  intro h
  have hdata : (copied 65536).dataOf 0 = some 0 := rfl
  have hfinite : References.FinitelyMany (copied 65536).dataOf := by
    refine (Set.finite_lt_nat 65536).subset fun h hh => ?_
    by_contra hge
    rw [Set.mem_ofPred_eq] at hh hge
    exact hh (dataOf_none (handle_copied_of_not_lt hge))
  have hcount := (h.counted 0 _ rfl).1
  exact (hfinite.count_pos hdata).ne hcount

end

end

end SharedPtrs

end SRCommon
