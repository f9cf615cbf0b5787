import SRCommon.Types.SafePtr

/-!
# Runs of SafePtr

A run keeps the counts, the blocks and the pointers right exactly when it makes no
assignment of a handle without a block, of the only handle to itself or of a handle to
a released object, hands no pointer over twice and lets no count wrap around.
-/

namespace SRCommon

namespace SafePtrs

/-! ## Steps -/

section

variable {η ω : Type} [DecidableEq η] {s : SafePtrs η ω} {h g : η} {b : ℕ}
variable {d e : SafePtrDynamicData} {p : SafePtr ω}

theorem Sound.allocate {ptr : Option ω} (hs : s.Sound) (hh : s.dataOf h = none)
    (hptr : s.NotReleased ptr) : (s.allocate h ptr).Sound ∧ s.Follows (s.allocate h ptr) := by
  let t := s.allocate h ptr
  have htdata : t.dataOf = Function.update s.dataOf h (some s.nextBlock) :=
    dataOf_setHandle (s := s) (some ⟨some s.nextBlock, ptr⟩)
  have hfresh := hs.fresh s.nextBlock le_rfl
  have hcount (c : ℕ) : References.count t.dataOf c =
      References.count s.dataOf c + if s.nextBlock = c then 1 else 0 := by
    have h' := hs.finite.count_update h (some s.nextBlock) c
    rw [hh, if_neg (Option.some_ne_none c).symm] at h'
    simpa [htdata] using h'
  have hlt (c : ℕ) (d : SafePtrDynamicData) (hc : s.block c = some d) : c ≠ s.nextBlock :=
    (hs.lt hc).ne
  refine ⟨⟨htdata ▸ hs.finite.update h _, fun c => ?_, fun c e hc => ?_, fun c hc => ?_,
    fun k q hq => ?_, fun k hk => ?_, hs.nodup⟩, Nat.le_succ _, fun c hc => ?_,
    fun c hc hnone => ?_, fun _ ho => ho⟩
  · rw [hcount, ← hs.counted c]
    by_cases hcb : c = s.nextBlock
    · subst hcb
      simp [SafePtrs.allocate, uses, hfresh]
    · simp [SafePtrs.allocate, uses, hcb, Ne.symm hcb]
  · by_cases hcb : c = s.nextBlock
    · subst hcb
      obtain rfl : { valid := ptr.isSome } = e := by simpa [SafePtrs.allocate] using hc
      refine ⟨(by decide : (1 : UInt32) ≠ 0), fun hlock => absurd hlock Bool.false_ne_true,
        fun o ho hreleased => ?_⟩
      have hcreated : ptr = some o := by simpa [SafePtrs.allocate] using ho
      exact absurd hreleased (by simp [SafePtrs.allocate, hptr o hcreated])
    · have hold : s.block c = some e := by simpa [SafePtrs.allocate, hcb] using hc
      obtain ⟨hused, howned, hfreed⟩ := hs.blocks c e hold
      refine ⟨hused, howned, fun o ho => hfreed o ?_⟩
      simpa [SafePtrs.allocate, hcb] using ho
  · have hlt : s.nextBlock < c := hc
    simpa [SafePtrs.allocate, hlt.ne'] using hs.fresh c hlt.le
  · by_cases hkh : k = h
    · obtain rfl : ⟨some s.nextBlock, ptr⟩ = q := by simpa [SafePtrs.allocate, hkh] using hq
      simp [SafePtrs.allocate]
    · have hold : s.handle k = some q := by simpa [SafePtrs.allocate, hkh] using hq
      rw [hs.ptr k q hold]
      cases hdata : q.data with
      | none => rfl
      | some c =>
          obtain ⟨e, he⟩ := hs.exists_block ((dataOf_some hold).trans hdata)
          simp [SafePtrs.allocate, hlt c e he]
  · exact hs.freeing_update (hs.notMem_freeing hh) htdata k hk
  · simp [SafePtrs.allocate, hc.ne]
  · simpa [SafePtrs.allocate, hc.ne] using hnone

theorem Sound.destroy (hs : s.Sound) (hp : s.handle h = some p) (hh : h ∉ s.freeing) :
    ∃ s', s.destroy h = some s' ∧ s'.Sound ∧ s.Frame s' := by
  obtain ⟨t, ht, -, hsound, hframe, -⟩ := hs.letGo (q := none) hp hh nofun
  exact ⟨t.setHandle h none, by simp [SafePtrs.destroy, hp, ht], hsound, hframe⟩

theorem share_setHandle (q : Option (SafePtr ω)) (f : SafePtrDynamicData → SafePtrDynamicData) :
    (s.setHandle h q).share h p f = s.share h p f := by
  cases hdata : p.data with
  | none => simp [share, hdata, setHandle]
  | some b => simp [share, hdata, setHandle, setBlock]

theorem copyAssign_eq {t : SafePtrs η ω} {q : SafePtr ω} (hp : s.handle h = some p)
    (hq : s.handle g = some q) (ht : s.letGo p.data = some t) :
    s.copyAssign h g =
      (t.setHandle h (some {})).share h { q with ptr := q.data.elim p.ptr fun _ => q.ptr }
        fun d => { d with valid := q.ptr.isSome } := by
  rw [share_setHandle, SafePtrs.copyAssign, hp, Option.bind_some, hq, Option.bind_some, ht,
    Option.bind_some]

/-- A block that a handle lets go of is still there for the other handles. -/
theorem Sound.useCount_ne_one {b : ℕ} (hs : s.Sound) (hne : h ≠ g) (hhb : s.dataOf h = some b)
    (hgb : s.dataOf g = some b) (hb : s.block b = some d) : d.useCount ≠ 1 := by
  intro hone
  have hcounted := hs.counted b
  have hothers := hs.finite.count_update h none b
  have hpos := (hs.finite.update h none).count_pos
    ((Function.update_of_ne hne.symm _ _).trans hgb)
  rw [if_pos hhb, if_neg (Option.some_ne_none b).symm, ← hcounted, hb, uses, Option.elim_some,
    hone] at hothers
  change _ + 1 = 1 + 0 at hothers
  omega

theorem Sound.copyAssign (hs : s.Sound) (hh : s.Named h) (hg : s.Named g)
    (hkeeps : s.AssignsWell h g) :
    ∃ s', s.copyAssign h g = some s' ∧ s'.Sound ∧ s.Frame s' := by
  obtain ⟨p, hp⟩ := Option.ne_none_iff_exists'.mp hh.1
  obtain ⟨q, hq⟩ := Option.ne_none_iff_exists'.mp hg.1
  have hgq : s.dataOf g = q.data := dataOf_some hq
  have hhp : s.dataOf h = p.data := dataOf_some hp
  have hqptr := hs.ptr g q hq
  obtain ⟨t, ht, -, hsound, hframe, hothers, hshared⟩ :=
    hs.letGo (q := some {}) hp hh.2 fun _ hnull => (Option.some.inj hnull).symm
  let u := t.setHandle h (some {})
  let r : SafePtr ω := { q with ptr := q.data.elim p.ptr fun _ => q.ptr }
  have hu : u.dataOf h = none := by
    rw [dataOf, setHandle_self]
    rfl
  have hrptr : r.ptr = r.data.bind u.createdFor := by
    rw [hframe.createdFor]
    change q.data.elim p.ptr (fun _ => q.ptr) = q.data.bind s.createdFor
    cases hdata : q.data with
    | none =>
        have hnull := hkeeps.null (hgq.trans hdata)
        rwa [ptrOf, hp] at hnull
    | some b => rw [← hdata, ← hqptr, hdata, Option.elim_some]
  -- the block of the source is there behind `letGo`, and has room for one more handle
  have hblock (b : ℕ) (hb : r.data = some b) : ∃ d, u.block b = some d ∧
      d.useCount.toNat + 1 < 2 ^ 32 := by
    have hgb : s.dataOf g = some b := hgq.trans hb
    obtain ⟨d, hd⟩ := hs.exists_block hgb
    by_cases hsame : p.data = some b
    · have hone : d.useCount ≠ 1 := by
        by_cases hne : h = g
        · exact hkeeps.self hne b d hgb hd
        · exact hs.useCount_ne_one hne (hhp.trans hsame) hgb hd
      refine ⟨_, hshared b d hsame hd hone, ?_⟩
      dsimp only
      rw [toNat_sub_one (not_le_one (hs.blocks b d hd).used hone)]
      exact d.useCount.toNat_lt
    · exact ⟨d, (hothers b hsame).trans hd, hkeeps.fits b hgb (hhp.symm ▸ hsame) d hd⟩
  have hshare := hsound.share (p := r) (f := fun d => { d with valid := q.ptr.isSome }) hu hrptr
    fun b hb => by
      obtain ⟨d, hd, hfits⟩ := hblock b hb
      obtain ⟨hused, howned, -⟩ := hsound.blocks b d hd
      refine ⟨d, hd, hfits, rfl, hused, howned, fun o ho hreleased => ?_⟩
      have hptr : s.ptrOf g = some o := by
        rw [ptrOf, hq, Option.bind_some, hqptr, show q.data = some b from hb, Option.bind_some,
          ← hframe.createdFor, ho]
      have hnone : s.dataOf g ≠ none := by
        rw [hgq, show q.data = some b from hb]
        exact Option.some_ne_none b
      have hnot := hkeeps.notReleased hnone o hptr
      rw [hframe.released, hnot] at hreleased
      cases hreleased
  obtain ⟨s', hs', hsound', hframe', -⟩ := hshare
  exact ⟨s', (copyAssign_eq hp hq ht).trans hs', hsound', hframe.trans hframe'⟩

end

theorem lock_recursiveLock {d : SafePtrDynamicData} (hd : d.lock = true → d.owned = true) :
    ∃ e, d.recursiveLock = some e ∧ e.useCount = d.useCount ∧ e.valid = d.valid ∧
      e.owned = true := by
  by_cases howned : d.owned = true
  · exact ⟨{ d with lockCount := d.lockCount + 1 },
      by simp [SafePtrDynamicData.recursiveLock, howned], rfl, rfl, howned⟩
  · have hlock : ¬d.lock = true := fun hlock => howned (hd hlock)
    exact ⟨{ d with lock := true, owned := true, lockCount := 1 },
      by simp [SafePtrDynamicData.recursiveLock, howned, hlock], rfl, rfl, rfl⟩

theorem unlock_eq (d : SafePtrDynamicData) : d.unlock.useCount = d.useCount ∧
    d.unlock.valid = d.valid ∧ ((d.lock = true → d.owned = true) →
      d.unlock.lock = true → d.unlock.owned = true) := by
  rw [SafePtrDynamicData.unlock]
  split
  · exact ⟨rfl, rfl, id⟩
  · split
    · exact ⟨rfl, rfl, fun _ => nofun⟩
    · exact ⟨rfl, rfl, id⟩

section

variable {η ω : Type} [DecidableEq η] {s : SafePtrs η ω} {h g k : η} {b : ℕ}
variable {d e : SafePtrDynamicData} {p : SafePtr ω}

theorem destroy_setHandle {p q : SafePtr ω} (hp : s.handle h = some p) (hq : q.data = p.data) :
    (s.setHandle h (some q)).destroy h = s.destroy h := by
  rw [destroy, destroy, setHandle_self, hp, Option.bind_some, Option.bind_some, hq]
  cases hdata : p.data with
  | none => simp [letGo, setHandle]
  | some b =>
      cases hb : s.block b with
      | none => simp [letGo, setHandle, hb]
      | some d => simp [letGo, setHandle, setBlock, hb]

/-- A new handle is a copy of another one. -/
theorem Sound.copy (hs : s.Sound) (hh : s.handle h = none) (hp : s.handle g = some p)
    (hfits : ∀ b, s.dataOf g = some b → s.Fits b) :
    ∃ s', s.share h p id = some s' ∧ s'.Sound ∧ s.Frame s' ∧
      s'.handle = Function.update s.handle h (some p) := by
  apply hs.share (dataOf_none hh) (hs.ptr g p hp)
  intro b hb
  have hgb : s.dataOf g = some b := (dataOf_some hp).trans hb
  obtain ⟨d, hd⟩ := hs.exists_block hgb
  exact ⟨d, hd, hfits b hgb d hd, rfl, hs.blocks b d hd⟩

theorem autoFree_of_valid {t : SafePtrs η ω} (hp : s.handle h = some p)
    (hshare : s.share k p id = some t) (hdata : p.data = some b) (hd : t.block b = some d)
    (he : d.recursiveLock = some e) (hvalid : e.valid = true) :
    s.autoFree k h = some ({ t.setBlock b (some e) with freeing := k :: t.freeing }, true) := by
  rw [SafePtrs.autoFree, hp, Option.bind_some, hshare, Option.bind_some, hdata]
  dsimp only
  rw [hd, Option.bind_some, he, Option.bind_some, if_pos hvalid]

theorem autoFree_of_not_valid {t : SafePtrs η ω} (hp : s.handle h = some p)
    (hshare : s.share k p id = some t) (hdata : p.data = some b) (hd : t.block b = some d)
    (he : d.recursiveLock = some e) (hvalid : ¬e.valid = true) :
    s.autoFree k h = ((t.setBlock b (some e.unlock)).destroy k).map (·, false) := by
  rw [SafePtrs.autoFree, hp, Option.bind_some, hshare, Option.bind_some, hdata]
  dsimp only
  rw [hd, Option.bind_some, he, Option.bind_some, if_neg hvalid]

theorem Sound.autoFree (hs : s.Sound) (hk : s.handle k = none) (hh : s.Named h)
    (hfits : ∀ b, s.dataOf h = some b → s.Fits b) :
    ∃ s' a, s.autoFree k h = some (s', a) ∧ s'.Sound ∧ s.Follows s' := by
  obtain ⟨p, hp⟩ := Option.ne_none_iff_exists'.mp hh.1
  obtain ⟨t, ht, hsound, hframe, hhandle⟩ := hs.copy hk hp hfits
  have htk : t.handle k = some p := by
    rw [hhandle, Function.update_self]
  have hkfree : k ∉ t.freeing := by
    rw [hframe.freeing]
    exact hs.notMem_freeing (dataOf_none hk)
  cases hdata : p.data with
  | none =>
      obtain ⟨s', hs', hsound', hframe'⟩ := hsound.destroy htk hkfree
      refine ⟨s', false, ?_, hsound', (hframe.trans hframe').follows⟩
      simp [SafePtrs.autoFree, hp, ht, hdata, hs']
  | some b =>
      obtain ⟨d, hd⟩ := hsound.exists_block ((dataOf_some htk).trans hdata)
      obtain ⟨hused, howned, hfreed⟩ := hsound.blocks b d hd
      obtain ⟨e, he, huse, hvalid, heowned⟩ := lock_recursiveLock howned
      by_cases hev : e.valid = true
      · have hblock : t.BlockSound b e :=
          ⟨huse ▸ hused, fun _ => heowned, fun o ho hr => hvalid.trans (hfreed o ho hr)⟩
        obtain ⟨hlocked, hlframe⟩ := hsound.setBlock hd huse hblock
        let u : SafePtrs η ω := { t.setBlock b (some e) with freeing := k :: t.freeing }
        have hfollows : (t.setBlock b (some e)).Follows u :=
          ⟨le_rfl, fun _ _ => rfl, fun _ _ hc => hc, fun _ ho => ho⟩
        refine ⟨u, true, autoFree_of_valid hp ht hdata hd he hev, ?_,
          (hframe.trans hlframe).follows.trans hfollows⟩
        · refine ⟨hlocked.finite, hlocked.counted, fun c x hc => ?_, hlocked.fresh, hlocked.ptr, ?_,
            hlocked.nodup.cons hkfree⟩
          · obtain ⟨hxused, hxowned, hxfreed⟩ := hlocked.blocks c x hc
            exact ⟨hxused, hxowned, hxfreed⟩
          · intro j hj
            rcases List.mem_cons.mp hj with rfl | hj
            · change t.dataOf j ≠ none
              rw [dataOf_some htk, hdata]
              exact Option.some_ne_none b
            · exact hlocked.freeing j hj
      · obtain ⟨huuse, huvalid, huowned⟩ := unlock_eq e
        have hblock : t.BlockSound b e.unlock :=
          ⟨by rwa [huuse, huse], huowned fun _ => heowned, fun o ho hr => by
            rw [huvalid, hvalid]
            exact hfreed o ho hr⟩
        obtain ⟨hunlocked, huframe⟩ := hsound.setBlock hd (huuse.trans huse) hblock
        obtain ⟨s', hs', hsound', hframe'⟩ := hunlocked.destroy htk hkfree
        refine ⟨s', false, ?_, hsound', ((hframe.trans huframe).trans hframe').follows⟩
        rw [autoFree_of_not_valid hp ht hdata hd he hev, hs']
        rfl

end

section

variable {η ω : Type} [DecidableEq η] [DecidableEq ω] {s : SafePtrs η ω} {h k : η} {b : ℕ} {o : ω}
variable {d : SafePtrDynamicData}

theorem freed_eq {freeing : List η} {p : SafePtr ω} (hfreeing : s.freeing = k :: freeing)
    (hp : s.handle k = some p) (hdata : p.data = some b) (hd : s.block b = some d) :
    s.freed = SafePtrs.destroy
      { s.setBlock b (some { d with valid := false }.unlock) with
        released := p.ptr.elim s.released fun o => Function.update s.released o true
        freeing } k := by
  rw [SafePtrs.freed, hfreeing]
  dsimp only
  rw [hp, Option.bind_some, hdata, Option.bind_some, hd, Option.bind_some]
  exact destroy_setHandle hp hdata.symm

theorem Sound.freed (hs : s.Sound) (hne : s.freeing ≠ [])
    (hkeeps : ∀ k ∈ s.freeing.head?, ∀ o, s.ptrOf k = some o → ∀ b d, s.dataOf k ≠ some b →
      s.block b = some d → s.createdFor b = some o → d.valid = false) :
    ∃ s', s.freed = some s' ∧ s'.Sound ∧ s.Follows s' ∧
      ∀ k ∈ s.freeing.head?, ∀ o, s.ptrOf k = some o → s'.released o = true := by
  obtain ⟨k, freeing, hfreeing⟩ := List.exists_cons_of_ne_nil hne
  have hmem : k ∈ s.freeing := by
    rw [hfreeing]
    exact List.mem_cons_self
  obtain ⟨b, hkb⟩ := Option.ne_none_iff_exists'.mp (hs.freeing k hmem)
  obtain ⟨p, hp, hdata⟩ := Option.bind_eq_some_iff.mp hkb
  obtain ⟨d, hd⟩ := hs.exists_block hkb
  have hptr := hs.ptr k p hp
  have hkptr : s.ptrOf k = p.ptr := by
    rw [ptrOf, hp, Option.bind_some]
  obtain ⟨hused, howned, -⟩ := hs.blocks b d hd
  let e : SafePtrDynamicData := { d with valid := false }.unlock
  obtain ⟨heuse, hevalid, heowned⟩ := unlock_eq { d with valid := false }
  have hblock : s.BlockSound b e := ⟨by rwa [heuse], heowned howned, fun _ _ _ => hevalid⟩
  obtain ⟨hinvalid, hframe⟩ := hs.setBlock hd heuse hblock
  let released := p.ptr.elim s.released fun o => Function.update s.released o true
  let t : SafePtrs η ω := { s.setBlock b (some e) with released, freeing }
  have hrel (o : ω) : released o = true ↔ p.ptr = some o ∨ s.released o = true := by
    cases hpo : p.ptr with
    | none => simp [released, hpo]
    | some o' =>
        by_cases heq : o = o'
        · simp [released, hpo, heq]
        · simp [released, hpo, heq, Ne.symm heq]
  have hsound : t.Sound := by
    apply hinvalid.pop
    · change freeing.Sublist s.freeing
      rw [hfreeing]
      exact List.sublist_cons_self k freeing
    · intro c x o hc ho hr
      rcases (hrel o).mp hr with hpo | hold
      · by_cases hcb : c = b
        · subst hcb
          obtain rfl : e = x := by simpa [SafePtrs.setBlock] using hc
          exact hevalid
        · have hcx : s.block c = some x := by simpa [SafePtrs.setBlock, hcb] using hc
          apply hkeeps k (by simp [hfreeing]) o (hkptr.trans hpo) c x _ hcx ho
          rw [hkb]
          exact fun heq => hcb (Option.some.inj heq).symm
      · exact (hinvalid.blocks c x hc).freed o ho hold
  have hkt : k ∉ t.freeing := by
    have hnodup := hs.nodup
    rw [hfreeing] at hnodup
    exact (List.nodup_cons.mp hnodup).1
  obtain ⟨s', hs', hsound', hframe'⟩ := hsound.destroy (h := k) hp hkt
  refine ⟨s', (freed_eq hfreeing hp hdata hd).trans hs', hsound', ?_, fun j hj o ho => ?_⟩
  · have hfollows : s.Follows t := ⟨le_rfl, fun _ _ => rfl, fun c _ hc => hframe.gone c hc,
      fun o ho => (hrel o).mpr (.inr ho)⟩
    exact hfollows.trans hframe'.follows
  · obtain rfl : k = j := by simpa [hfreeing] using hj
    rw [hframe'.released]
    exact (hrel o).mpr (.inl (hkptr.symm.trans ho))

end

section

variable {η ω : Type} [DecidableEq η] {s : SafePtrs η ω} {h : η} {own : ω → Option η}

theorem construct_allocate {o : ω}
    (hnew : ∀ g ∈ own o, g ≠ h → s.handle g ≠ none ∧ s.dataOf g = none) :
    s.construct own h (some o) = some ((s.setHandle h (some {})).allocate h (some o)) := by
  rw [SafePtrs.construct]
  cases ho : own o with
  | none => rfl
  | some g =>
      by_cases hgh : g = h
      · rw [hgh, Option.elim_some, setHandle_self]
        rfl
      · obtain ⟨hg, hnone⟩ := hnew g ho hgh
        obtain ⟨p, hp⟩ := Option.ne_none_iff_exists'.mp hg
        rw [dataOf_some hp] at hnone
        rw [Option.elim_some, setHandle_ne _ hgh, hp, Option.map_some, hnone]
        rfl

theorem construct_share {g : η} {o : ω} {b : ℕ} (ho : own o = some g) (hgh : g ≠ h)
    (hdata : s.dataOf g = some b) :
    s.construct own h (some o) =
      (s.setHandle h (some {})).share h ⟨some b, some o⟩ id := by
  obtain ⟨p, hp, hb⟩ := Option.bind_eq_some_iff.mp hdata
  rw [SafePtrs.construct, ho, Option.elim_some, setHandle_ne _ hgh, hp, Option.map_some, hb]
  rfl

theorem Sound.construct {ptr : Option ω} (hs : s.Sound)
    (hwell : s.WellFormed own (.construct h ptr)) (hkeeps : s.Keeps own (.construct h ptr)) :
    ∃ s', s.construct own h ptr = some s' ∧ s'.Sound ∧ s.Follows s' := by
  obtain ⟨hh, hown⟩ := hwell
  let t := s.setHandle h (some {})
  have ht : t.Sound :=
    hs.setHandle_null (dataOf_none hh) fun _ hnull => (Option.some.inj hnull).symm
  have hst : s.Follows t := ⟨le_rfl, fun _ _ => rfl, fun _ _ hc => hc, fun _ ho => ho⟩
  have hth : t.dataOf h = none := by
    rw [dataOf, setHandle_self]
    rfl
  cases ptr with
  | none => exact ⟨t, rfl, ht, hst⟩
  | some o =>
      obtain ⟨hnew, hold⟩ := hkeeps o rfl
      by_cases hnone : ∀ g ∈ own o, g ≠ h → s.dataOf g = none
      · have hreleased : t.NotReleased (some o) := by
          rintro _ ⟨⟩
          exact hnew hnone
        obtain ⟨hsound, hfollows⟩ := ht.allocate hth hreleased
        exact ⟨_, construct_allocate fun g hg hgh => ⟨hown o rfl g hg hgh, hnone g hg hgh⟩, hsound,
          hst.trans hfollows⟩
      · push Not at hnone
        obtain ⟨g, ho, hgh, hne⟩ := hnone
        obtain ⟨b, hdata⟩ := Option.ne_none_iff_exists'.mp hne
        obtain ⟨hcreated, hfits⟩ := hold g ho hgh b hdata
        have htg : t.dataOf g = some b := by
          rw [dataOf, setHandle_ne _ hgh]
          exact hdata
        have hshare : ∃ s', t.share h ⟨some b, some o⟩ id = some s' ∧ s'.Sound ∧ t.Frame s' ∧
            s'.handle = Function.update t.handle h (some ⟨some b, some o⟩) := by
          apply ht.share hth hcreated.symm
          rintro _ ⟨⟩
          obtain ⟨d, hd⟩ := ht.exists_block htg
          exact ⟨d, hd, hfits d hd, rfl, ht.blocks b d hd⟩
        obtain ⟨s', hs', hsound, hframe, -⟩ := hshare
        exact ⟨s', (construct_share ho hgh hdata).trans hs', hsound, hst.trans hframe.follows⟩

end

section

variable {η ω : Type} [DecidableEq η] [DecidableEq ω] {s : SafePtrs η ω} {own : ω → Option η}

/-- A step that keeps the conditions has a meaning and keeps its promise. -/
theorem Sound.step (hs : s.Sound) {call : SafePtrCall η ω} (hwell : s.WellFormed own call)
    (hkeeps : s.Keeps own call) :
    ∃ r, s.step own call = some r ∧ s.Promise call r.1 ∧ r.1.Sound := by
  cases call with
  | construct h ptr =>
      obtain ⟨s', hs', hsound, hfollows⟩ := hs.construct hwell hkeeps
      exact ⟨(s', false), by simp [SafePtrs.step, hs'], ⟨hsound.consistent, hfollows, nofun⟩,
        hsound⟩
  | default h =>
      have hnull : s.NotReleased none := nofun
      obtain ⟨hsound, hfollows⟩ := hs.allocate (dataOf_none hwell) hnull
      exact ⟨_, rfl, ⟨hsound.consistent, hfollows, nofun⟩, hsound⟩
  | copy h g =>
      obtain ⟨p, hp⟩ := Option.ne_none_iff_exists'.mp hwell.2.1
      obtain ⟨s', hs', hsound, hframe, -⟩ := hs.copy hwell.1 hp hkeeps
      exact ⟨(s', false), by simp [SafePtrs.step, hp, hs'],
        ⟨hsound.consistent, hframe.follows, nofun⟩, hsound⟩
  | copyAssign h g =>
      obtain ⟨s', hs', hsound, hframe⟩ := hs.copyAssign hwell.1 hwell.2 hkeeps
      exact ⟨(s', false), by simp [SafePtrs.step, hs'],
        ⟨hsound.consistent, hframe.follows, nofun⟩, hsound⟩
  | autoFree copy h =>
      obtain ⟨s', a, hs', hsound, hfollows⟩ := hs.autoFree hwell.1 hwell.2 hkeeps
      exact ⟨(s', a), hs', ⟨hsound.consistent, hfollows, nofun⟩, hsound⟩
  | freed =>
      obtain ⟨s', hs', hsound, hfollows, hreleased⟩ := hs.freed hwell hkeeps
      exact ⟨(s', true), by simp [SafePtrs.step, hs'],
        ⟨hsound.consistent, hfollows, fun _ => hreleased⟩, hsound⟩
  | destroy h =>
      obtain ⟨p, hp⟩ := Option.ne_none_iff_exists'.mp hwell.1
      obtain ⟨s', hs', hsound, hframe⟩ := hs.destroy hp hwell.2
      exact ⟨(s', false), by simp [SafePtrs.step, hs'],
        ⟨hsound.consistent, hframe.follows, nofun⟩, hsound⟩

end

/-! ## The conditions are needed -/

section

variable {η ω : Type} [DecidableEq η] {s s' : SafePtrs η ω} {h g k : η} {b : ℕ} {o : ω}
variable {d : SafePtrDynamicData} {p : SafePtr ω} {own : ω → Option η}
variable {f : SafePtrDynamicData → SafePtrDynamicData}

theorem share_some (hdata : p.data = some b) (hd : s.block b = some d) :
    s.share h p f = some ((s.setBlock b (some { f d with useCount := (f d).useCount + 1 })).setHandle
      h (some p)) := by
  simp [share, hdata, hd]

/-- A count that is right after one more handle has not wrapped around. -/
theorem Sound.fits_of_share (hs : s.Sound) (hh : s.dataOf h = none) (hdata : p.data = some b)
    (hd : s.block b = some d) (hshare : s.share h p f = some s')
    (hcount : ∀ e, s'.block b = some e → e.useCount.toNat = References.count s'.dataOf b) :
    d.useCount.toNat + 1 < 2 ^ 32 := by
  rw [share_some hdata hd] at hshare
  cases hshare
  have hnat := hcount _ (Function.update_self ..)
  have hadded := hs.finite.count_update h (some b) b
  rw [hh, if_neg (Option.some_ne_none b).symm, if_pos rfl, ← hs.counted b, hd] at hadded
  rw [dataOf_setHandle, Option.bind_some, hdata] at hnat
  change ((f d).useCount + 1).toNat =
    References.count (Function.update s.dataOf h (some b)) b at hnat
  change _ + 0 = d.useCount.toNat + 1 at hadded
  rw [← hadded, Nat.add_zero, ← hnat]
  exact ((f d).useCount + 1).toNat_lt

theorem Sound.fits_of_copy (hs : s.Sound) (hh : s.handle h = none) (hp : s.handle g = some p)
    (hshare : s.share h p id = some s') (hs' : s'.Consistent) (hg : s.dataOf g = some b) :
    s.Fits b := by
  intro d hd
  have hdata : p.data = some b := (dataOf_some hp).symm.trans hg
  exact hs.fits_of_share (dataOf_none hh) hdata hd hshare (hs'.useCount b)

theorem Sound.fits_of_autoFree {a : Bool} (hs : s.Sound) (hk : s.handle k = none)
    (hfree : s.autoFree k h = some (s', a)) (hs' : s'.Consistent) (hh : s.dataOf h = some b) :
    s.Fits b := by
  intro d hd
  obtain ⟨p, hp, hdata⟩ := Option.bind_eq_some_iff.mp hh
  have hkh : k ≠ h := by
    rintro rfl
    rw [hk] at hp
    cases hp
  let t := (s.setBlock b (some { d with useCount := d.useCount + 1 })).setHandle k (some p)
  have hshare : s.share k p id = some t := share_some hdata hd
  have htb : t.block b = some { d with useCount := d.useCount + 1 } := Function.update_self ..
  obtain ⟨e, he, huse, -, -⟩ :=
    lock_recursiveLock (d := { d with useCount := d.useCount + 1 }) (hs.blocks b d hd).owned
  by_contra hmax
  have hzero : e.useCount = 0 := by
    rw [huse]
    apply UInt32.toNat_inj.mp
    have hlt := d.useCount.toNat_lt
    rw [UInt32.toNat_add]
    change (d.useCount.toNat + 1) % 2 ^ 32 = 0
    omega
  by_cases hev : e.valid = true
  · cases (autoFree_of_valid hp hshare hdata htb he hev).symm.trans hfree
    apply hmax
    apply hs.fits_of_share (f := id) (dataOf_none hk) hdata hd hshare
    intro x hx
    have hnat := hs'.useCount b e (Function.update_self ..)
    cases htb.symm.trans hx
    rw [huse] at hnat
    exact hnat
  · obtain ⟨huuse, -, -⟩ := unlock_eq e
    have htk : (t.setBlock b (some e.unlock)).handle k = some p := setHandle_self _
    have hub : (t.setBlock b (some e.unlock)).block b = some e.unlock := Function.update_self ..
    have hgone : e.unlock.useCount ≤ 1 := by
      rw [huuse, hzero]
      decide
    rw [autoFree_of_not_valid hp hshare hdata htb he hev, SafePtrs.destroy, htk, Option.bind_some,
      hdata, SafePtrs.letGo] at hfree
    rw [hub, Option.map_some, if_pos hgone] at hfree
    cases hfree
    let u := ((t.setBlock b (some e.unlock)).setBlock b none).setHandle k none
    have hkept : u.dataOf h = some b := by
      simp [u, t, dataOf, SafePtrs.setHandle, SafePtrs.setBlock, hkh.symm, hp, hdata]
    obtain ⟨x, hx⟩ := (hs'.block b).mpr ⟨h, hkept⟩
    have hnone : u.block b = none := Function.update_self ..
    cases hnone.symm.trans hx

theorem Sound.assignsWell_of_copyAssign (hs : s.Sound) (hh : s.Named h) (hg : s.Named g)
    (hassign : s.copyAssign h g = some s') (hs' : s'.Consistent) : s.AssignsWell h g := by
  obtain ⟨p, hp⟩ := Option.ne_none_iff_exists'.mp hh.1
  obtain ⟨q, hq⟩ := Option.ne_none_iff_exists'.mp hg.1
  have hgq : s.dataOf g = q.data := dataOf_some hq
  have hhp : s.dataOf h = p.data := dataOf_some hp
  obtain ⟨t, ht, -, hsound, hframe, hothers, -⟩ :=
    hs.letGo (q := some {}) hp hh.2 fun _ hnull => (Option.some.inj hnull).symm
  let u := t.setHandle h (some {})
  let f : SafePtrDynamicData → SafePtrDynamicData := fun d => { d with valid := q.ptr.isSome }
  have hu : u.dataOf h = none := by
    rw [dataOf, setHandle_self]
    rfl
  rw [copyAssign_eq hp hq ht] at hassign
  refine ⟨fun hnone => ?_, fun hself b d hb hd hone => ?_, fun _ o ho => ?_,
    fun b hb hne d hd => ?_⟩
  · have hdata : q.data = none := hgq.symm.trans hnone
    rw [SafePtrs.share] at hassign
    simp only [hdata, Option.elim_none] at hassign
    cases hassign
    cases hptr : s.ptrOf h with
    | none => rfl
    | some o =>
        have hpo : p.ptr = some o := by
          rwa [ptrOf, hp, Option.bind_some] at hptr
        obtain ⟨b, hb, -⟩ := hs'.ptr h o (by rw [ptrOf, setHandle_self]; exact hpo)
        rw [dataOf, setHandle_self] at hb
        cases hb
  · have hgone : t.block b = none := by
      have hdata : p.data = some b := by
        rw [← hhp, hself, hb]
      rw [hdata, SafePtrs.letGo, hd, Option.map_some, if_pos (by rw [hone]; decide)] at ht
      cases ht
      exact Function.update_self ..
    have hdata : q.data = some b := hgq.symm.trans hb
    rw [SafePtrs.share] at hassign
    simp only [hdata] at hassign
    change (t.block b).map _ = _ at hassign
    rw [hgone] at hassign
    cases hassign
  · obtain ⟨b, hb, hcreated⟩ := hs.consistent.ptr g o ho
    have hdata : q.data = some b := hgq.symm.trans hb
    have hptr : q.ptr = some o := by
      rwa [ptrOf, hq, Option.bind_some] at ho
    rw [SafePtrs.share] at hassign
    simp only [hdata] at hassign
    obtain ⟨d, -, rfl⟩ := Option.map_eq_some_iff.mp hassign
    by_contra hreleased
    have hinvalid := hs'.freed h b { f d with useCount := (f d).useCount + 1 } o
      (by rw [dataOf, setHandle_self]; rfl) (Function.update_self ..)
      ((congrFun hframe.createdFor b).trans hcreated)
      ((congrFun hframe.released o).trans (Bool.of_not_eq_false hreleased))
    simp [f, hptr] at hinvalid
  · have hdata : q.data = some b := hgq.symm.trans hb
    have hud : u.block b = some d := (hothers b fun hpb => hne (hhp.trans hpb)).trans hd
    exact hsound.fits_of_share (p := { q with ptr := q.data.elim p.ptr fun _ => q.ptr }) hu hdata
      hud hassign (hs'.useCount b)

theorem Sound.keeps_of_construct {ptr : Option ω} (hs : s.Sound)
    (hwell : s.WellFormed own (.construct h ptr)) (hconstruct : s.construct own h ptr = some s')
    (hs' : s'.Consistent) : s.Keeps own (.construct h ptr) := by
  obtain ⟨hh, hown⟩ := hwell
  let t := s.setHandle h (some {})
  have ht : t.Sound :=
    hs.setHandle_null (dataOf_none hh) fun _ hnull => (Option.some.inj hnull).symm
  have hth : t.dataOf h = none := by
    rw [dataOf, setHandle_self]
    rfl
  intro o ho
  obtain rfl : ptr = some o := ho
  refine ⟨fun hnone => ?_, fun g hg hgh b hb => ?_⟩
  · rw [construct_allocate fun g hg hgh => ⟨hown o rfl g hg hgh, hnone g hg hgh⟩] at hconstruct
    cases hconstruct
    by_contra hreleased
    have hinvalid := hs'.freed h s.nextBlock { valid := true } o
      (by simp [dataOf, SafePtrs.allocate, SafePtrs.setHandle]) (Function.update_self ..)
      (Function.update_self ..) (Bool.of_not_eq_false hreleased)
    cases hinvalid
  · rw [construct_share hg hgh hb] at hconstruct
    have htb : t.dataOf g = some b := by
      rw [dataOf, setHandle_ne _ hgh]
      exact hb
    obtain ⟨d, hd⟩ := ht.exists_block htb
    refine ⟨?_, fun d hd => ht.fits_of_share hth rfl hd hconstruct (hs'.useCount b)⟩
    rw [share_some rfl hd] at hconstruct
    cases hconstruct
    obtain ⟨c, hc, hcreated⟩ := hs'.ptr h o (by rw [ptrOf, setHandle_self]; rfl)
    rw [dataOf, setHandle_self] at hc
    cases hc
    exact hcreated

/-- What `destroy` leaves as it is. -/
theorem destroy_others (hp : s.handle h = some p) (hdestroy : s.destroy h = some s') :
    (∀ g, g ≠ h → s'.handle g = s.handle g) ∧ (∀ c, p.data ≠ some c → s'.block c = s.block c) ∧
      s'.createdFor = s.createdFor ∧ s'.released = s.released := by
  rw [SafePtrs.destroy, hp, Option.bind_some] at hdestroy
  obtain ⟨t, ht, rfl⟩ := Option.map_eq_some_iff.mp hdestroy
  cases hdata : p.data with
  | none =>
      rw [hdata] at ht
      cases ht
      exact ⟨fun g hg => setHandle_ne none hg, fun _ _ => rfl, rfl, rfl⟩
  | some b =>
      rw [hdata] at ht
      obtain ⟨d, -, rfl⟩ := Option.map_eq_some_iff.mp ht
      exact ⟨fun g hg => setHandle_ne none hg,
        fun c hc => Function.update_of_ne (fun hcb => hc (congrArg some hcb.symm)) _ _, rfl, rfl⟩

end

section

variable {η ω : Type} [DecidableEq η] [DecidableEq ω] {s s' : SafePtrs η ω} {own : ω → Option η}

theorem Sound.keeps_of_freed (hs : s.Sound) (hfree : s.freed = some s') (hs' : s'.Consistent) :
    s.Keeps own .freed := by
  intro k hk o ho c e hkc hc hcreated
  obtain ⟨freeing, hfreeing⟩ := List.head?_eq_some_iff.mp hk
  have hmem : k ∈ s.freeing := List.mem_of_mem_head? hk
  obtain ⟨b, hkb⟩ := Option.ne_none_iff_exists'.mp (hs.freeing k hmem)
  obtain ⟨p, hp, hdata⟩ := Option.bind_eq_some_iff.mp hkb
  obtain ⟨d, hd⟩ := hs.exists_block hkb
  have hptr : p.ptr = some o := by
    rwa [ptrOf, hp, Option.bind_some] at ho
  have hcb : c ≠ b := by
    rintro rfl
    exact hkc hkb
  rw [freed_eq hfreeing hp hdata hd] at hfree
  let t : SafePtrs η ω := { s.setBlock b (some { d with valid := false }.unlock) with
    released := p.ptr.elim s.released fun o => Function.update s.released o true
    freeing }
  have hpt : t.handle k = some p := hp
  obtain ⟨hhandles, hblocks, hcreated', hreleased⟩ := destroy_others hpt hfree
  -- another handle has the block, before and after
  obtain ⟨h, hh⟩ := (hs.consistent.block c).mp ⟨e, hc⟩
  have hhk : h ≠ k := by
    rintro rfl
    exact hkc hh
  apply hs'.freed h c e o
  · rw [dataOf, hhandles h hhk]
    exact hh
  · rw [hblocks c fun heq => hcb (Option.some.inj (hdata.symm.trans heq)).symm]
    exact (Function.update_of_ne hcb _ _).trans hc
  · rw [hcreated']
    exact hcreated
  · rw [hreleased]
    simp [t, hptr]

/-- A step keeps its promise exactly when it keeps the conditions. -/
theorem Sound.promise_iff (hs : s.Sound) {call : SafePtrCall η ω} (hwell : s.WellFormed own call) :
    (∃ r, s.step own call = some r ∧ s.Promise call r.1) ↔ s.Keeps own call := by
  constructor
  · rintro ⟨r, hr, hpromise⟩
    have hs' := hpromise.consistent
    cases call with
    | construct h ptr =>
        obtain ⟨s', hconstruct, rfl⟩ := Option.map_eq_some_iff.mp hr
        exact hs.keeps_of_construct hwell hconstruct hs'
    | default h => trivial
    | copy h g =>
        obtain ⟨p, hp⟩ := Option.ne_none_iff_exists'.mp hwell.2.1
        obtain ⟨s', hcopy, rfl⟩ := Option.map_eq_some_iff.mp hr
        rw [hp, Option.bind_some] at hcopy
        exact fun b hb => hs.fits_of_copy hwell.1 hp hcopy hs' hb
    | copyAssign h g =>
        obtain ⟨s', hassign, rfl⟩ := Option.map_eq_some_iff.mp hr
        exact hs.assignsWell_of_copyAssign hwell.1 hwell.2 hassign hs'
    | autoFree copy h => exact fun b hb => hs.fits_of_autoFree hwell.1 hr hs' hb
    | freed =>
        obtain ⟨s', hfree, rfl⟩ := Option.map_eq_some_iff.mp hr
        exact hs.keeps_of_freed hfree hs'
    | destroy h => trivial
  · intro hkeeps
    obtain ⟨r, hr, hpromise, -⟩ := hs.step hwell hkeeps
    exact ⟨r, hr, hpromise⟩

/-- A run of the program keeps the promise exactly when its steps keep the conditions. -/
theorem always_promise_iff {calls : List (SafePtrCall η ω)}
    (hwell : Steps.Along (fun s => s.step own) (WellFormed own) ({} : SafePtrs η ω) calls) :
    Steps.Always (fun s => s.step own) Promise ({} : SafePtrs η ω) calls ↔
      Steps.Along (fun s => s.step own) (Keeps own) ({} : SafePtrs η ω) calls := by
  apply Steps.always_iff_along (fun s call hs hcall => hs.promise_iff hcall) _ sound_empty hwell
  intro s call r hs hcall hkeeps hr
  obtain ⟨r', hr', -, hsound⟩ := hs.step hcall hkeeps
  cases hr.symm.trans hr'
  exact hsound

end

/-- Two handles to an object that one of them frees. -/
theorem always_promise_iff_shared :
    let calls : List (SafePtrCall (Fin 3) Unit) :=
      [.construct 0 (some ()), .default 1, .copyAssign 1 0, .autoFree 2 0, .freed, .destroy 0,
        .destroy 1]
    Steps.Always (fun s => s.step fun _ => none) Promise ({} : SafePtrs (Fin 3) Unit) calls ↔
      Steps.Along (fun s => s.step fun _ => none) (Keeps fun _ => none)
        ({} : SafePtrs (Fin 3) Unit) calls := by
  intro calls
  apply always_promise_iff
  refine ⟨⟨rfl, nofun⟩, fun r hr => ?_⟩
  cases hr
  refine ⟨rfl, fun r hr => ?_⟩
  cases hr
  refine ⟨⟨⟨nofun, nofun⟩, nofun, nofun⟩, fun r hr => ?_⟩
  cases hr
  refine ⟨⟨rfl, nofun, nofun⟩, fun r hr => ?_⟩
  cases hr
  refine ⟨nofun, fun r hr => ?_⟩
  cases hr
  refine ⟨⟨nofun, nofun⟩, fun r hr => ?_⟩
  cases hr
  exact ⟨⟨nofun, nofun⟩, fun _ _ => trivial⟩

/-- The only handle is assigned to itself. -/
theorem not_always_promise :
    ¬∀ calls : List (SafePtrCall Unit Unit),
      Steps.Along (fun s => s.step fun _ => none) (WellFormed fun _ => none)
        ({} : SafePtrs Unit Unit) calls →
      Steps.Always (fun s => s.step fun _ => none) Promise ({} : SafePtrs Unit Unit) calls := by
  intro h
  have hwell : Steps.Along (fun s => s.step fun _ => none) (WellFormed fun _ => none)
      ({} : SafePtrs Unit Unit) [.default (), .copyAssign () ()] := by
    refine ⟨rfl, fun r hr => ?_⟩
    cases hr
    exact ⟨⟨⟨nofun, nofun⟩, nofun, nofun⟩, fun _ _ => trivial⟩
  obtain ⟨r, hr, -, r', hr', -⟩ := h _ hwell
  cases hr
  cases hr'

end SafePtrs

end SRCommon
