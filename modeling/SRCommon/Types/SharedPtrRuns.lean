import SRCommon.Types.SharedPtrCounts

/-!
# Runs of SharedPtr

A handle that is assigned to another one makes its block valid, also when
`AutoFree` has released the object. In the runs without such an assignment a
released object stays invalid, and with automatic ownership alone every object
is deleted with its last handle.
-/

namespace SRCommon

namespace SharedPtrs

section

variable {η ω : Type} [DecidableEq η] [DecidableEq ω] {s s' : SharedPtrs η ω} {h g : η} {b : ℕ}
variable {o : ω} {d : SharedPtrDynamicData} {p : SharedPtr ω} {derived : Bool}

/-! ## Conditions on a step -/

/-- The handle can take one more reference to the block. -/
def FitsBlock (s : SharedPtrs η ω) (b : ℕ) : Prop :=
  ∀ d, s.block b = some d → d.strongCount ≠ 65535

/-- A block is referred to by 65535 handles at most. -/
def Fits (s : SharedPtrs η ω) : SharedPtrCall η ω → Prop
  | .copy _ g => ∀ b, s.dataOf g = some b → s.FitsBlock b
  | .copyAssign h g => h ≠ g → ∀ b, s.dataOf g = some b → s.dataOf h ≠ some b → s.FitsBlock b
  | .construct _ (some o) => ∀ b, s.object o = .alive (some b) → s.FitsBlock b
  | .assign h (some o) =>
      s.ptrOf h ≠ some o → ∀ b, s.object o = .alive (some b) → s.FitsBlock b
  | _ => True

/-- A pointer to an object without an own block is handed over once. -/
def HandsOver (derived : Bool) (s : SharedPtrs η ω) : SharedPtrCall η ω → Prop
  | .construct _ (some o) =>
      derived = false → s.object o = .alive none ∧ ∀ g, s.ptrOf g ≠ some o
  | .assign h (some o) =>
      derived = false → s.ptrOf h ≠ some o → s.object o = .alive none ∧ ∀ g, s.ptrOf g ≠ some o
  | _ => True

/-- What is assigned to another handle has a valid block or none. -/
def AssignsValid (s : SharedPtrs η ω) : SharedPtrCall η ω → Prop
  | .copyAssign h g =>
      h ≠ g → ∀ b d, s.dataOf g = some b → s.block b = some d → d.valid = true
  | _ => True

structure Keeps (derived : Bool) (s : SharedPtrs η ω) (call : SharedPtrCall η ω) : Prop where
  fits : s.Fits call
  handsOver : HandsOver derived s call
  assignsValid : s.AssignsValid call

/-! ## Steps -/

section

variable {η ω : Type} {s s' : SharedPtrs η ω} {h g : η} {o : ω} {p : SharedPtr ω} {derived : Bool}

theorem dataOf_none (hh : s.handle h = none) : s.dataOf h = none := by
  rw [dataOf, hh]
  rfl

theorem dataOf_some (hp : s.handle h = some p) : s.dataOf h = p.data := by
  rw [dataOf, hp]
  rfl

theorem ptrOf_some (hp : s.handle h = some p) : s.ptrOf h = p.ptr := by
  rw [ptrOf, hp]
  rfl

/-- What a handle has belongs together. -/
theorem Sound.handle_belongs (hs : s.Sound) (hp : s.handle h = some p) {b : ℕ}
    (hb : p.data = some b) : ∃ o, p.ptr = some o ∧ s.Belongs b o := by
  rw [← ptrOf_some hp]
  exact hs.paired.exists_belongs ((dataOf_some hp).trans hb)

theorem Sound.handle_null (hs : s.Sound) (hp : s.handle h = some p) (hnone : p.data = none) :
    p.ptr = none := by
  rw [← ptrOf_some hp]
  exact (hs.paired.null h).mp ((dataOf_some hp).trans hnone)

variable [DecidableEq η]

theorem Resets.dataOf_self (hr : s.Resets h s') : s'.dataOf h = none := by
  rw [hr.dataOf, Function.update_self]

theorem Resets.handle_ne (hr : s.Resets h s') (hgh : g ≠ h) : s'.handle g = s.handle g := by
  rw [hr.handle, Function.update_of_ne hgh]

theorem Resets.ptrOf_ne (hr : s.Resets h s') (ho : ∀ g, s.ptrOf g ≠ some o) (g : η) :
    s'.ptrOf g ≠ some o := by
  rw [hr.ptrOf]
  by_cases hgh : g = h
  · rw [hgh, Function.update_self]
    exact (Option.some_ne_none o).symm
  · rw [Function.update_of_ne hgh]
    exact ho g

theorem Sound.take (hs : s.Sound) (hh : s.dataOf h = none)
    (hfits : ∀ b, s.object o = .alive (some b) → s.FitsBlock b)
    (hover : derived = false → s.object o = .alive none ∧ ∀ g, s.ptrOf g ≠ some o)
    (htake : s.take derived h o = some s') : s'.Sound ∧ s.Stays s' := by
  cases derived with
  | false =>
      cases htake
      obtain ⟨ho, hnew⟩ := hover rfl
      exact ⟨hs.allocate hh ho hnew, .of_eq rfl⟩
  | true =>
      rw [SharedPtrs.take, if_pos rfl] at htake
      split at htake
      · rename_i b ho
        obtain ⟨hsound, hobject⟩ := hs.share hh (fun hb => by cases hb)
          (fun c hc => ⟨o, rfl, .inr (hc ▸ ho)⟩)
          (fun c d hc hd => ⟨hfits c (hc ▸ ho) d hd, rfl, rfl, rfl⟩) htake
        exact ⟨hsound, .of_eq hobject⟩
      · cases htake
        exact ⟨hs, .refl s⟩
      · cases htake

theorem Sound.copy (hs : s.Sound) (hh : s.dataOf h = none) (hp : s.handle g = some p)
    (hfits : ∀ b, s.dataOf g = some b → s.FitsBlock b) (hcopy : s.share h p id = some s') :
    s'.Sound ∧ s.Stays s' := by
  obtain ⟨hsound, hobject⟩ := hs.share hh (hs.handle_null hp) (fun b hb => hs.handle_belongs hp hb)
    (fun b d hb hd => ⟨hfits b ((dataOf_some hp).trans hb) d hd, rfl, rfl, rfl⟩) hcopy
  exact ⟨hsound, .of_eq hobject⟩

theorem Sound.construct (hs : s.Sound) (hh : s.handle h = none) {ptr : Option ω}
    (hfits : s.Fits (.construct h ptr)) (hover : HandsOver derived s (.construct h ptr))
    (hconstruct : s.construct derived h ptr = some s') : s'.Sound ∧ s.Stays s' := by
  have hnone := dataOf_none hh
  have hnull := hs.setHandle_null (p := some {}) hnone rfl rfl
  cases ptr with
  | none =>
      cases hconstruct
      exact ⟨hnull, .of_eq rfl⟩
  | some o =>
      have hptr : (s.setHandle h (some {})).ptrOf = s.ptrOf := by
        rw [ptrOf_update (s := s) (p := some {}) rfl]
        exact Function.update_eq_self_iff.mpr ((hs.paired.null h).mp hnone).symm
      have hdata : (s.setHandle h (some {})).dataOf h = none := by
        rw [dataOf_update (s := s) (p := some {}) rfl, Function.update_self]
        rfl
      refine hnull.take hdata hfits (fun hd => ?_) hconstruct
      rw [hptr]
      exact hover hd

/-- The block of another handle fits after a `Reset` when it has fitted before. -/
theorem Resets.fits (hr : s.Resets h s') (hfits : s.Fits (.copyAssign h g)) (hne : h ≠ g)
    {b : ℕ} {d' : SharedPtrDynamicData} (hg : s.dataOf g = some b) (hd' : s'.block b = some d') :
    d'.strongCount ≠ 65535 := by
  by_cases hdata : s.dataOf h = some b
  · obtain ⟨d, -, -, -, hless⟩ := hr.block b d' hd'
    intro hmax
    have hlt := d.strongCount.toNat_lt
    have hsucc := (hless hdata).1
    rw [hmax] at hsucc
    change 65535 + 1 = d.strongCount.toNat at hsucc
    omega
  · rw [hr.others b hdata] at hd'
    exact hfits hne b hg hdata d' hd'

end

/-- An inversion of `Reset`. -/
theorem Sound.of_reset (hs : s.Sound) (hreset : s.reset h = some s') :
    s'.Sound ∧ s.Resets h s' := by
  obtain ⟨p, hp, -⟩ := Option.bind_eq_some_iff.mp hreset
  obtain ⟨s₁, hs₁, hsound, hr⟩ := hs.reset hp
  cases hreset.symm.trans hs₁
  exact ⟨hsound, hr⟩

theorem Sound.copyAssign (hs : s.Sound) (hfits : s.Fits (.copyAssign h g))
    (hvalid : s.AssignsValid (.copyAssign h g)) (hassign : s.copyAssign h g = some s') :
    s'.Sound ∧ s.Stays s' := by
  rw [SharedPtrs.copyAssign] at hassign
  split at hassign
  · obtain ⟨-, -, rfl⟩ := Option.map_eq_some_iff.mp hassign
    exact ⟨hs, .refl s⟩
  · rename_i hne
    obtain ⟨s₁, hreset, hassign⟩ := Option.bind_eq_some_iff.mp hassign
    obtain ⟨hs₁, hr⟩ := hs.of_reset hreset
    obtain ⟨p, hp, hshare⟩ := Option.bind_eq_some_iff.mp hassign
    have hg : s.dataOf g = p.data := dataOf_some ((hr.handle_ne (Ne.symm hne)).symm.trans hp)
    have hblock : ∀ b d', p.data = some b → s₁.block b = some d' → d'.strongCount ≠ 65535 ∧
        d'.strongCount = d'.strongCount ∧ d'.weakCount = d'.weakCount ∧
        p.ptr.isSome = d'.valid := by
      intro b d' hb hd'
      obtain ⟨d, hd, -, hsame, -⟩ := hr.block b d' hd'
      obtain ⟨o, ho, -⟩ := hs₁.handle_belongs hp hb
      refine ⟨hr.fits hfits hne (hg.trans hb) hd', rfl, rfl, ?_⟩
      rw [hsame, hvalid hne b d (hg.trans hb) hd, ho]
      rfl
    obtain ⟨hsound, hobject⟩ := hs₁.share hr.dataOf_self (hs₁.handle_null hp)
      (fun b hb => hs₁.handle_belongs hp hb) hblock hshare
    exact ⟨hsound, hr.stays.trans (.of_eq hobject)⟩

theorem Sound.assign (hs : s.Sound) {ptr : Option ω} (hfits : s.Fits (.assign h ptr))
    (hover : HandsOver derived s (.assign h ptr)) (hassign : s.assign derived h ptr = some s') :
    s'.Sound ∧ s.Stays s' := by
  cases ptr with
  | none =>
      obtain ⟨hsound, hr⟩ := hs.of_reset hassign
      exact ⟨hsound, hr.stays⟩
  | some o =>
      obtain ⟨p, hp, hassign⟩ := Option.bind_eq_some_iff.mp hassign
      split at hassign
      · cases hassign
        exact ⟨hs, .refl s⟩
      rename_i hne
      rw [← ptrOf_some hp] at hne
      obtain ⟨s₁, hreset, htake⟩ := Option.bind_eq_some_iff.mp hassign
      obtain ⟨hs₁, hr⟩ := hs.of_reset hreset
      have hobject : s₁.object o = s.object o := (hr.object o).resolve_right fun ho => hne ho.1
      have hfits₁ : ∀ b, s₁.object o = .alive (some b) → s₁.FitsBlock b := by
        intro b hb d hd
        rw [hobject] at hb
        rw [hr.others b fun hdata => hne ((hs.paired.iff (.inr hb) h).mp hdata)] at hd
        exact hfits hne b hb d hd
      have hover₁ : derived = false → s₁.object o = .alive none ∧ ∀ g, s₁.ptrOf g ≠ some o := by
        intro hd
        obtain ⟨ho, hnew⟩ := hover hd hne
        exact ⟨hobject.trans ho, hr.ptrOf_ne hnew⟩
      obtain ⟨hsound, hstays⟩ := hs₁.take hr.dataOf_self hfits₁ hover₁ htake
      exact ⟨hsound, hr.stays.trans hstays⟩

theorem Sound.destroy (hs : s.Sound) (hdestroy : s.destroy h = some s') :
    s'.Sound ∧ s.Stays s' := by
  obtain ⟨p, hp, hdestroy⟩ := Option.bind_eq_some_iff.mp hdestroy
  obtain ⟨s₁, hs₁, rfl⟩ := Option.map_eq_some_iff.mp hdestroy
  split at hs₁
  · rename_i hnone
    cases hs₁
    exact ⟨hs.setHandle_null ((dataOf_some hp).trans hnone) rfl rfl, .of_eq rfl⟩
  · obtain ⟨hsound, hr⟩ := hs.of_reset hs₁
    exact ⟨hsound.setHandle_null hr.dataOf_self rfl rfl, hr.stays.trans (.of_eq rfl)⟩

/-- A step that meets the conditions keeps the counts and pairs. -/
theorem Sound.step (hs : s.Sound) {call : SharedPtrCall η ω} {r : SharedPtrs η ω × Bool}
    (hkeeps : Keeps derived s call) (hstep : s.step derived call = some r) :
    r.1.Sound ∧ s.Stays r.1 := by
  cases call with
  | create o policy =>
      obtain ⟨ho, hr⟩ := Option.ite_none_right_eq_some.mp hstep
      cases hr
      exact hs.create ho
  | construct h ptr =>
      obtain ⟨hh, hr⟩ := Option.ite_none_right_eq_some.mp hstep
      obtain ⟨s', hs', rfl⟩ := Option.map_eq_some_iff.mp hr
      exact hs.construct hh hkeeps.fits hkeeps.handsOver hs'
  | copy h g =>
      obtain ⟨hh, hr⟩ := Option.ite_none_right_eq_some.mp hstep
      obtain ⟨s', hs', rfl⟩ := Option.map_eq_some_iff.mp hr
      obtain ⟨p, hp, hshare⟩ := Option.bind_eq_some_iff.mp hs'
      exact hs.copy (dataOf_none hh) hp hkeeps.fits hshare
  | move h g =>
      obtain ⟨hh, hr⟩ := Option.ite_none_right_eq_some.mp hstep
      obtain ⟨s', hs', rfl⟩ := Option.map_eq_some_iff.mp hr
      obtain ⟨hsound, hobject⟩ := hs.moveFrom (dataOf_none hh) hs'
      exact ⟨hsound, .of_eq hobject⟩
  | copyAssign h g =>
      obtain ⟨s', hs', rfl⟩ := Option.map_eq_some_iff.mp hstep
      exact hs.copyAssign hkeeps.fits hkeeps.assignsValid hs'
  | moveAssign h g =>
      obtain ⟨s', hs', rfl⟩ := Option.map_eq_some_iff.mp hstep
      obtain ⟨s₁, hreset, hmove⟩ := Option.bind_eq_some_iff.mp hs'
      obtain ⟨hs₁, hr⟩ := hs.of_reset hreset
      obtain ⟨hsound, hobject⟩ := hs₁.moveFrom hr.dataOf_self hmove
      exact ⟨hsound, hr.stays.trans (.of_eq hobject)⟩
  | assign h ptr =>
      obtain ⟨s', hs', rfl⟩ := Option.map_eq_some_iff.mp hstep
      exact hs.assign hkeeps.fits hkeeps.handsOver hs'
  | reset h =>
      obtain ⟨s', hs', rfl⟩ := Option.map_eq_some_iff.mp hstep
      obtain ⟨hsound, hr⟩ := hs.of_reset hs'
      exact ⟨hsound, hr.stays⟩
  | autoFree h =>
      obtain ⟨p, hp, hr⟩ := Option.bind_eq_some_iff.mp hstep
      exact hs.autoFree (fun b hb => hs.handle_belongs hp hb) hr
  | autoFreeThis o =>
      obtain ⟨hd, hr⟩ := Option.ite_none_right_eq_some.mp hstep
      split at hr
      · rename_i data ho
        refine hs.autoFree (fun b hb => ⟨o, rfl, .inr ?_⟩) hr
        change data = some b at hb
        rw [ho, hb]
      · cases hr
  | destroy h =>
      obtain ⟨s', hs', rfl⟩ := Option.map_eq_some_iff.mp hstep
      exact hs.destroy hs'

/-! ## Freed objects -/

/-- Every handle to a released object is invalid. -/
def Freed (s : SharedPtrs η ω) : Prop :=
  ∀ h p o, s.handle h = some p → p.ptr = some o → s.object o = .released → s.valid p = some false

/-- What a released object is promised by every step. -/
structure StaysFreed (s : SharedPtrs η ω) (call : SharedPtrCall η ω) (s' : SharedPtrs η ω) :
    Prop where
  freed : s'.Freed
  stays : ∀ o, s.object o = .released → s'.object o = .released
  releases : ∀ h p o, call = .autoFree h → s.handle h = some p → p.ptr = some o →
    s.valid p = some true → s'.object o = .released

theorem Sound.freed {η ω : Type} {s : SharedPtrs η ω} (hs : s.Sound) : s.Freed := by
  intro h p o hp hptr hreleased
  rw [valid]
  cases hdata : p.data with
  | none => rfl
  | some b =>
      obtain ⟨d, hb, -⟩ := hs.counted.exists_block ((dataOf_some hp).trans hdata)
      have hbelongs : s.Belongs b o :=
        .inl ⟨h, (dataOf_some hp).trans hdata, (ptrOf_some hp).trans hptr⟩
      simp only [hb, Option.map_some]
      rw [hs.paired.valid b o d hbelongs hb, hreleased]
      rfl

theorem object_autoFree {η ω : Type} [DecidableEq ω] {s s' : SharedPtrs η ω} {p : SharedPtr ω}
    {o : ω} {a : Bool} (hptr : p.ptr = some o) (hvalid : s.valid p = some true)
    (hfree : s.autoFree p = some (s', a)) : s'.object o = .released := by
  rw [valid] at hvalid
  rw [SharedPtrs.autoFree] at hfree
  cases hdata : p.data with
  | none =>
      rw [hdata] at hvalid
      cases hvalid
  | some b =>
      simp only [hdata] at hvalid hfree
      obtain ⟨d, hb, hd⟩ := Option.map_eq_some_iff.mp hvalid
      simp only [hb, Option.bind_some, if_pos hd, hptr] at hfree
      obtain ⟨s₁, hs₁, hr⟩ := Option.map_eq_some_iff.mp hfree
      cases hr
      rw [delete] at hs₁
      split at hs₁
      · cases hs₁
        exact Function.update_self ..
      · cases hs₁

/-- A freed object stays freed as long as no handle to it is assigned to another one. -/
theorem staysFreed_of_keeps {η ω : Type} [DecidableEq η] [DecidableEq ω] (derived : Bool)
    {calls : List (SharedPtrCall η ω)}
    (h : Steps.Along (fun s => s.step derived) (Keeps derived) ({} : SharedPtrs η ω) calls) :
    Steps.Throughout (fun s => s.step derived) StaysFreed ({} : SharedPtrs η ω) calls := by
  refine h.throughout (fun s call r hs hkeeps hr => ?_) sound_empty
  obtain ⟨hsound, hstays⟩ := hs.step hkeeps hr
  refine ⟨⟨hsound.freed, fun o ho => ?_, fun h p o hcall hp hptr hvalid => ?_⟩, hsound⟩
  · rw [← ho]
    refine hstays o ?_ ?_ <;> rw [ho]
    · exact PointedObject.noConfusion
    · rfl
  · subst hcall
    obtain ⟨q, hq, hr⟩ := Option.bind_eq_some_iff.mp hr
    cases hp.symm.trans hq
    exact object_autoFree hptr hvalid hr

/-- Two handles to an object that one of them frees. -/
theorem staysFreed_shared :
    Steps.Throughout (fun s => s.step true) StaysFreed ({} : SharedPtrs Bool Unit)
      [.create () .manually, .construct false (some ()), .copy true false, .autoFree false,
        .reset false] := by
  refine staysFreed_of_keeps true ⟨⟨trivial, trivial, trivial⟩, fun r hr => ?_⟩
  cases hr
  refine ⟨⟨fun b hb d hd => ?_, (fun hd => by cases hd), trivial⟩, fun r hr => ?_⟩
  · cases hb
    cases hd
    decide
  cases hr
  refine ⟨⟨fun b hb d hd => ?_, trivial, trivial⟩, fun r hr => ?_⟩
  · cases hb
    cases hd
    decide
  cases hr
  refine ⟨⟨trivial, trivial, trivial⟩, fun r hr => ?_⟩
  cases hr
  exact ⟨⟨trivial, trivial, trivial⟩, fun _ _ => trivial⟩

/-- The block of a freed object is valid again when its handle is assigned to another one. -/
theorem not_staysFreed_assigned :
    ¬ ∀ calls : List (SharedPtrCall Bool Unit),
      Steps.Throughout (fun s => s.step false) StaysFreed ({} : SharedPtrs Bool Unit) calls := by
  intro h
  have hlast := (h ([.create () .automatic, .construct false (some ()), .construct true none,
    .autoFree false] ++ [.copyAssign true false])).last rfl rfl
  cases hlast.freed true ⟨some 0, some ()⟩ () rfl rfl rfl

end

end SharedPtrs

end SRCommon
