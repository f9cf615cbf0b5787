import SRCommon.Common.SubscriptionPools

/-!
# Exact subscriptions

A subscription is held by one handle as long as no handle is assigned to that
holds one itself. Such an assignment lets go of the old subscription without
telling the holder.
-/

namespace SRCommon

namespace Subscriptions

variable {α κ η : Type} {w w' : Subscriptions α κ η} {this other : η} {a : ℕ}
  {call : SubscriptionCall α κ η}

/-- Some handle that is alive points to the info. -/
def Held (w : Subscriptions α κ η) (a : ℕ) : Prop := ∃ this, w.handles this = some (some a)

/-- The handles that hold a subscription. -/
def holding (w : Subscriptions α κ η) : Set η := {this | ∃ a, w.handles this = some (some a)}

/-- What the callers see of the subscriptions. -/
structure Exact (w : Subscriptions α κ η) : Prop where
  broadcast : ∀ id, ∃ called, w.holder.broadcast id = some called ∧ (called.map Prod.fst).Nodup ∧
    ∀ a callback, (a, callback) ∈ called ↔ w.Held a ∧
      ∃ info, w.holder.infos[a]? = some info ∧ info.id = id ∧ info.callback = callback
  count : w.holder.count.toNat = w.holding.ncard
  not_deleted : ∀ a, w.Held a → w.holder.deleted.count a = 0
  deleted : ∀ a, a < w.holder.infos.length → ¬ w.Held a → w.holder.deleted.count a = 1

/-- Every info that is not deleted is held, by one handle. -/
structure Owned (w : Subscriptions α κ η) : Prop where
  tracks : w.holder.Tracks
  held_iff : ∀ a, w.Held a ↔ (w.holder.info a).isSome
  unique : ∀ this other a, w.handles this = some (some a) → w.handles other = some (some a) →
    this = other

theorem owned_empty : (empty : Subscriptions α κ η).Owned where
  tracks := SubscriptionHolder.tracks_empty
  held_iff a := iff_of_false (fun ⟨_, h⟩ => by cases h) nofun
  unique _ _ _ h := by cases h

/-- The subscription of a handle that holds one. -/
def held (w : Subscriptions α κ η) (this : η) : ℕ := ((w.handles this).getD none).getD 0

theorem held_eq (h : w.handles this = some (some a)) : w.held this = a := by
  rw [held, h]
  rfl

theorem Owned.bijOn_held (h : w.Owned) : Set.BijOn w.held w.holding w.holder.live := by
  refine ⟨?_, ?_, ?_⟩
  · rintro this ⟨a, ha⟩
    rw [held_eq ha, Finset.mem_coe, SubscriptionHolder.mem_live, ← h.held_iff]
    exact ⟨this, ha⟩
  · rintro this ⟨a, ha⟩ other ⟨b, hb⟩ heq
    rw [held_eq ha, held_eq hb] at heq
    exact h.unique this other a ha (heq ▸ hb)
  · intro a ha
    obtain ⟨this, hthis⟩ := (h.held_iff a).mpr (SubscriptionHolder.mem_live.mp ha)
    exact ⟨this, ⟨a, hthis⟩, held_eq hthis⟩

theorem Owned.finite_holding (h : w.Owned) : w.holding.Finite :=
  h.bijOn_held.finite_iff_finite.mpr (Finset.finite_toSet w.holder.live)

theorem Owned.ncard_holding (h : w.Owned) : w.holding.ncard = w.holder.count.toNat := by
  rw [← h.tracks.card_live, ← Set.ncard_coe_finset, h.bijOn_held.ncard_eq]

theorem Owned.exact (h : w.Owned) : w.Exact where
  broadcast id := by
    obtain ⟨called, hcalled, hnodup, hmem⟩ := h.tracks.broadcast id
    refine ⟨called, hcalled, hnodup, fun a callback => ?_⟩
    rw [hmem, h.held_iff, SubscriptionHolder.isSome_info]
    constructor
    · rintro ⟨info, hinfo, hrest⟩
      obtain ⟨hnot, hget⟩ := SubscriptionHolder.info_eq_some.mp hinfo
      exact ⟨⟨(List.getElem?_eq_some_iff.mp hget).1, hnot⟩, info, hget, hrest⟩
    · rintro ⟨⟨-, hnot⟩, info, hget, hrest⟩
      exact ⟨info, SubscriptionHolder.info_eq_some.mpr ⟨hnot, hget⟩, hrest⟩
  count := h.ncard_holding.symm
  not_deleted a ha := by
    rw [h.held_iff, SubscriptionHolder.isSome_info] at ha
    exact List.count_eq_zero_of_not_mem ha.2
  deleted a ha hnot := by
    rw [h.held_iff, SubscriptionHolder.isSome_info, not_and_not_right] at hnot
    exact List.count_eq_one_of_mem h.tracks.nodup (hnot ha)

theorem owned_of_points (h : w.Owned) (hholder : w'.holder = w.holder)
    (hpoints : ∀ x a, w'.handles x = some (some a) ↔ w.handles x = some (some a)) : w'.Owned where
  tracks := hholder ▸ h.tracks
  held_iff a := by
    rw [hholder, ← h.held_iff]
    exact exists_congr fun x => hpoints x a
  unique x y a hx hy := h.unique x y a ((hpoints x a).mp hx) ((hpoints y a).mp hy)

/-! ## Calls -/

/-- A call uses handles that are alive, and makes others. -/
def NamesHandles (w : Subscriptions α κ η) : SubscriptionCall α κ η → Prop
  | .construct this => w.handles this = none
  | .subscribe this _ _ => w.handles this = none
  | .moveConstruct this other => w.handles this = none ∧ (w.handles other).isSome
  | .moveAssign this other => (w.handles this).isSome ∧ (w.handles other).isSome
  | .reset this => (w.handles this).isSome
  | .destroy this => (w.handles this).isSome
  | .broadcast _ => True

/-- An assignment is to an empty handle or to itself, and there is a number for a subscription. -/
def Fits (w : Subscriptions α κ η) : SubscriptionCall α κ η → Prop
  | .subscribe _ _ _ => w.holding.ncard + 1 < 2 ^ 32
  | .moveAssign this other => this = other ∨ w.handles this = some none
  | _ => True

variable [DecidableEq η]

/-- A handle that holds nothing may be made, emptied or destroyed. -/
theorem Owned.update (h : w.Owned) (hthis : ∀ a, w.handles this ≠ some (some a))
    {v : Option (Option ℕ)} (hv : ∀ a, v ≠ some (some a)) :
    Owned ⟨w.holder, Function.update w.handles this v⟩ := by
  refine owned_of_points h rfl fun x a => ?_
  rcases eq_or_ne x this with rfl | hne
  · exact iff_of_false (by dsimp only; rw [Function.update_self]; exact hv a) (hthis a)
  · dsimp only
    rw [Function.update_of_ne hne]

/-- What an exchange leaves of the handles. -/
theorem handles_exchange (hne : this ≠ other) (hw : w.exchange this other = some w') (x : η) :
    w'.handles x = if x = this then w.handles other else if x = other then some none
      else w.handles x := by
  obtain ⟨p, hp, rfl⟩ := Option.map_eq_some_iff.mp hw
  change Function.update (Function.update w.handles other (some none)) this (some p) x = _
  rcases eq_or_ne x this with rfl | hx
  · rw [if_pos rfl, Function.update_self, hp]
  · rw [if_neg hx, Function.update_of_ne hx]
    rcases eq_or_ne x other with rfl | hx'
    · rw [if_pos rfl, Function.update_self]
    · rw [if_neg hx', Function.update_of_ne hx']

theorem holder_exchange (hw : w.exchange this other = some w') : w'.holder = w.holder := by
  obtain ⟨p, -, rfl⟩ := Option.map_eq_some_iff.mp hw
  rfl

theorem exists_exchange (this : η) (hother : (w.handles other).isSome) :
    ∃ w', w.exchange this other = some w' := by
  obtain ⟨p, hp⟩ := Option.isSome_iff_exists.mp hother
  rw [exchange, hp]
  exact ⟨_, rfl⟩

theorem exchange_self (hw : w.exchange this this = some w') : w' = w := by
  obtain ⟨p, hp, rfl⟩ := Option.map_eq_some_iff.mp hw
  rw [setHandle, setHandle, Function.update_idem, ← hp, Function.update_eq_self]

/-- The subscription moves with the pointer. -/
theorem Owned.exchange (h : w.Owned) (hne : this ≠ other)
    (hthis : ∀ a, w.handles this ≠ some (some a)) (hw : w.exchange this other = some w') :
    w'.Owned := by
  have hpoints : ∀ x a, w'.handles x = some (some a) ↔
      x = this ∧ w.handles other = some (some a) ∨
        x ≠ this ∧ x ≠ other ∧ w.handles x = some (some a) := by
    intro x a
    rw [handles_exchange hne hw]
    split
    next hx => simp [hx]
    next hx =>
      split
      next hx' => simp [hx', hne.symm]
      next hx' => simp [hx, hx']
  refine ⟨holder_exchange hw ▸ h.tracks, fun a => ?_, fun x y a hx hy => ?_⟩
  · rw [holder_exchange hw, ← h.held_iff]
    constructor
    · rintro ⟨x, hx⟩
      rcases (hpoints x a).mp hx with ⟨-, hother⟩ | ⟨-, -, hx⟩
      · exact ⟨other, hother⟩
      · exact ⟨x, hx⟩
    · rintro ⟨x, hx⟩
      rcases eq_or_ne x other with rfl | hx'
      · exact ⟨this, (hpoints this a).mpr (.inl ⟨rfl, hx⟩)⟩
      · refine ⟨x, (hpoints x a).mpr (.inr ⟨?_, hx', hx⟩)⟩
        rintro rfl
        exact hthis a hx
  · rcases (hpoints x a).mp hx with ⟨rfl, hx⟩ | ⟨-, hx', hx⟩ <;>
      rcases (hpoints y a).mp hy with ⟨rfl, hy⟩ | ⟨-, hy', hy⟩
    · rfl
    · exact absurd (h.unique y other a hy hx) hy'
    · exact absurd (h.unique x other a hx hy) hx'
    · exact h.unique x y a hx hy

/-- An assignment to a handle that holds a subscription lets go of it, and the holder still
counts it. -/
theorem Owned.fits_of_moveAssign (h : w.Owned) (hthis : (w.handles this).isSome)
    (hw : w.exchange this other = some w') (hexact : w'.Exact) :
    this = other ∨ w.handles this = some none := by
  by_contra hnot
  obtain ⟨hne, hfull⟩ := not_or.mp hnot
  obtain ⟨p, hp⟩ := Option.isSome_iff_exists.mp hthis
  obtain ⟨a, rfl⟩ : ∃ a, p = some a := by
    rw [← Option.isSome_iff_exists]
    cases p with
    | none => exact absurd hp hfull
    | some a => rfl
  have hhandles := handles_exchange hne hw
  have hsub : w'.holding ⊆ w.holding := by
    rintro x ⟨b, hb⟩
    rw [hhandles] at hb
    split at hb
    next hx => exact ⟨a, hx ▸ hp⟩
    next hx =>
      split at hb
      · cases hb
      · exact ⟨b, hb⟩
  have hlost : ∃ x ∈ w.holding, x ∉ w'.holding := by
    by_cases hother : other ∈ w.holding
    · refine ⟨other, hother, fun ⟨b, hb⟩ => ?_⟩
      rw [hhandles, if_neg (Ne.symm hne), if_pos rfl] at hb
      cases hb
    · refine ⟨this, ⟨a, hp⟩, fun ⟨b, hb⟩ => hother ⟨b, ?_⟩⟩
      rwa [hhandles, if_pos rfl] at hb
  obtain ⟨x, hx, hx'⟩ := hlost
  have hlt : w'.holding.ncard < w.holding.ncard :=
    Set.ncard_lt_ncard ⟨hsub, fun hsup => hx' (hsup hx)⟩ h.finite_holding
  rw [← hexact.count, holder_exchange hw, h.ncard_holding] at hlt
  exact lt_irrefl _ hlt

variable [DecidableEq α]

theorem Owned.subscribe (h : w.Owned) (hthis : w.handles this = none)
    (hfits : w.holding.ncard + 1 < 2 ^ 32) (id : α) (callback : κ) :
    ∃ holder, w.holder.subscribe id callback = some holder ∧
      Owned (setHandle { w with holder } this (some w.holder.infos.length)) := by
  rw [h.ncard_holding] at hfits
  obtain ⟨holder, hholder, htracks, hdeleted, info, hinfos⟩ :=
    h.tracks.subscribe hfits id callback
  have hpoints : ∀ x a, Function.update w.handles this (some (some w.holder.infos.length)) x =
      some (some a) ↔ x = this ∧ a = w.holder.infos.length ∨ w.handles x = some (some a) := by
    intro x a
    rcases eq_or_ne x this with rfl | hx
    · rw [Function.update_self, hthis]
      simp [eq_comm]
    · rw [Function.update_of_ne hx]
      simp [hx]
  have hnew : ∀ x, w.handles x ≠ some (some w.holder.infos.length) := by
    intro x hx
    have hsome := (h.held_iff _).mp ⟨x, hx⟩
    exact lt_irrefl _ (SubscriptionHolder.isSome_info.mp hsome).1
  refine ⟨holder, hholder, htracks, fun a => ?_, fun x y a hx hy => ?_⟩
  · have hheld : Held (setHandle { w with holder } this (some w.holder.infos.length)) a ↔
        a = w.holder.infos.length ∨ w.Held a := by
      simp only [Held, setHandle, hpoints, exists_or, exists_eq_left]
    have hlt : w.holder.infos.length ∉ w.holder.deleted := fun hmem =>
      lt_irrefl _ (h.tracks.lt _ hmem)
    rw [hheld, h.held_iff, SubscriptionHolder.isSome_info, SubscriptionHolder.isSome_info]
    change _ ↔ a < holder.infos.length ∧ a ∉ holder.deleted
    rw [hinfos, hdeleted, List.length_append, List.length_singleton, Nat.lt_succ_iff_lt_or_eq]
    constructor
    · rintro (rfl | ⟨ha, hnot⟩)
      · exact ⟨.inr rfl, hlt⟩
      · exact ⟨.inl ha, hnot⟩
    · rintro ⟨ha | ha, hnot⟩
      · exact .inr ⟨ha, hnot⟩
      · exact .inl ha
  · rcases (hpoints x a).mp hx with ⟨hx, ha⟩ | hx <;>
      rcases (hpoints y a).mp hy with ⟨hy, hb⟩ | hy
    · rw [hx, hy]
    · exact absurd (ha ▸ hy) (hnew y)
    · exact absurd (hb ▸ hx) (hnew x)
    · exact h.unique x y a hx hy

theorem Owned.reset (h : w.Owned) (hthis : (w.handles this).isSome) :
    ∃ w', w.reset this = some w' ∧ w'.Owned ∧ w'.handles this = some none := by
  obtain ⟨p, hp⟩ := Option.isSome_iff_exists.mp hthis
  cases p with
  | none =>
      refine ⟨w, ?_, h, hp⟩
      rw [Subscriptions.reset, hp]
      rfl
  | some b =>
      obtain ⟨holder, hholder, htracks, hinfos, hdeleted⟩ :=
        h.tracks.unsubscribe ((h.held_iff b).mp ⟨this, hp⟩)
      have hpoints : ∀ x a, Function.update w.handles this (some none) x = some (some a) ↔
          a ≠ b ∧ w.handles x = some (some a) := by
        intro x a
        rcases eq_or_ne x this with rfl | hx
        · rw [Function.update_self, hp]
          simp [eq_comm]
        · rw [Function.update_of_ne hx, iff_and_self]
          rintro ha rfl
          exact hx (h.unique x this a ha hp)
      refine ⟨setHandle { w with holder } this none, ?_,
        ⟨htracks, fun a => ?_, fun x y a hx hy => ?_⟩, Function.update_self ..⟩
      · rw [Subscriptions.reset, hp, Option.bind_some]
        dsimp only
        rw [hholder]
        rfl
      · have hheld : Held (setHandle { w with holder } this none) a ↔ a ≠ b ∧ w.Held a := by
          simp only [Held, setHandle, hpoints, exists_and_left]
        rw [hheld, h.held_iff, SubscriptionHolder.isSome_info, SubscriptionHolder.isSome_info]
        change _ ↔ a < holder.infos.length ∧ a ∉ holder.deleted
        rw [hinfos, hdeleted, List.mem_append, List.mem_singleton, not_or]
        exact ⟨fun ⟨hne, hlt, hnot⟩ => ⟨hlt, hnot, hne⟩, fun ⟨hlt, hnot, hne⟩ => ⟨hne, hlt, hnot⟩⟩
      · exact h.unique x y a ((hpoints x a).mp hx).2 ((hpoints y a).mp hy).2

/-- A call that fits keeps every subscription owned. -/
theorem Owned.step (h : w.Owned) (hnames : w.NamesHandles call) (hfits : w.Fits call) :
    ∃ r, w.step call = some r ∧ r.1.Owned := by
  cases call with
  | construct this =>
      refine ⟨(w.setHandle this none, []), if_pos hnames, h.update (fun a ha => ?_) nofun⟩
      cases hnames.symm.trans ha
  | subscribe this id callback =>
      have hthis : w.handles this = none := hnames
      obtain ⟨holder, hholder, howned⟩ := h.subscribe hthis hfits id callback
      refine ⟨(_, []), ?_, howned⟩
      rw [Subscriptions.step, if_pos hthis, hholder]
      rfl
  | moveConstruct this other =>
      obtain ⟨hthis, hother⟩ := hnames
      have hne : this ≠ other := by
        rintro rfl
        rw [hthis] at hother
        cases hother
      obtain ⟨w', hw'⟩ := exists_exchange this hother
      have howned := h.exchange hne (fun a ha => by cases hthis.symm.trans ha) hw'
      refine ⟨(w', []), ?_, howned⟩
      rw [Subscriptions.step, if_pos hthis, hw']
      rfl
  | moveAssign this other =>
      obtain ⟨hthis, hother⟩ := hnames
      obtain ⟨w', hw'⟩ := exists_exchange this hother
      have howned : w'.Owned := by
        rcases eq_or_ne this other with rfl | hne
        · rwa [exchange_self hw']
        · have hempty := hfits.resolve_left hne
          exact h.exchange hne (fun a ha => by cases hempty.symm.trans ha) hw'
      refine ⟨(w', []), ?_, howned⟩
      rw [Subscriptions.step, if_neg (Option.isSome_iff_ne_none.mp hthis), hw']
      rfl
  | reset this =>
      obtain ⟨w', hw', howned, -⟩ := h.reset hnames
      refine ⟨(w', []), ?_, howned⟩
      rw [Subscriptions.step, hw']
      rfl
  | destroy this =>
      obtain ⟨w', hw', howned, hempty⟩ := h.reset hnames
      have hdestroyed : Owned ⟨w'.holder, Function.update w'.handles this none⟩ :=
        howned.update (fun a ha => by cases hempty.symm.trans ha) nofun
      refine ⟨(_, []), ?_, hdestroyed⟩
      rw [Subscriptions.step, hw']
      rfl
  | broadcast id =>
      obtain ⟨called, hcalled, -⟩ := h.tracks.broadcast id
      refine ⟨(w, called), ?_, h⟩
      rw [Subscriptions.step, hcalled]
      rfl

/-- A subscription that finds the counter at its end sets it back to zero. -/
theorem Owned.fits_of_subscribe (h : w.Owned) (hthis : w.handles this = none) {id : α}
    {callback : κ} {holder : SubscriptionHolder α κ}
    (hholder : w.holder.subscribe id callback = some holder)
    (hexact : Exact (setHandle { w with holder } this (some w.holder.infos.length))) :
    w.holding.ncard + 1 < 2 ^ 32 := by
  obtain ⟨holder', hholder', hcount⟩ := h.tracks.exists_subscribe id callback
  cases hholder.symm.trans hholder'
  have hnotMem : this ∉ w.holding := fun ⟨a, ha⟩ => by cases hthis.symm.trans ha
  have hinsert : holding (setHandle { w with holder } this (some w.holder.infos.length)) =
      insert this w.holding := by
    ext x
    rw [Set.mem_insert_iff]
    change (∃ a, Function.update w.handles this (some (some w.holder.infos.length)) x =
      some (some a)) ↔ _
    rcases eq_or_ne x this with rfl | hx
    · rw [Function.update_self]
      exact iff_of_true ⟨_, rfl⟩ (.inl rfl)
    · rw [Function.update_of_ne hx, or_iff_right hx]
      rfl
  have hnew := hexact.count
  rw [hinsert, Set.ncard_insert_of_notMem hnotMem h.finite_holding] at hnew
  rw [← hnew]
  exact holder.count.toNat_lt

theorem Owned.exact_iff_fits (h : w.Owned) (hnames : w.NamesHandles call) :
    (∃ r, w.step call = some r ∧ r.1.Exact) ↔ w.Fits call := by
  constructor
  · rintro ⟨r, hr, hexact⟩
    cases call with
    | subscribe this id callback =>
        have hthis : w.handles this = none := hnames
        rw [Subscriptions.step, if_pos hthis] at hr
        obtain ⟨holder, hholder, rfl⟩ := Option.map_eq_some_iff.mp hr
        exact h.fits_of_subscribe hthis hholder hexact
    | moveAssign this other =>
        rw [Subscriptions.step, if_neg (Option.isSome_iff_ne_none.mp hnames.1)] at hr
        obtain ⟨w', hw', rfl⟩ := Option.map_eq_some_iff.mp hr
        exact h.fits_of_moveAssign hnames.1 hw' hexact
    | construct _ => trivial
    | moveConstruct _ _ => trivial
    | reset _ => trivial
    | destroy _ => trivial
    | broadcast _ => trivial
  · intro hfits
    obtain ⟨r, hr, howned⟩ := h.step hnames hfits
    exact ⟨r, hr, howned.exact⟩

/-- Subscriptions stay exact in just the runs that assign to empty handles. -/
theorem always_exact_iff {calls : List (SubscriptionCall α κ η)}
    (h : Steps.Along step NamesHandles empty calls) :
    Steps.Always step (fun _ _ (w : Subscriptions α κ η) => w.Exact) empty calls ↔
      Steps.Along step Fits empty calls := by
  refine Steps.always_iff_along (fun w call hw hnames => hw.exact_iff_fits hnames)
    (fun w call r hw hnames hfits hr => ?_) owned_empty h
  obtain ⟨r', hr', howned⟩ := hw.step hnames hfits
  cases hr.symm.trans hr'
  exact howned

/-- A second handle takes the subscription of the first, hears a message and is destroyed. -/
theorem always_exact_iff_moved :
    Steps.Along step NamesHandles (empty : Subscriptions Unit Bool Bool)
        [.subscribe false () true, .moveConstruct true false, .broadcast (), .destroy true] ∧
      (Steps.Always step (fun _ _ (w : Subscriptions Unit Bool Bool) => w.Exact) empty
          [.subscribe false () true, .moveConstruct true false, .broadcast (), .destroy true] ↔
        Steps.Along step Fits (empty : Subscriptions Unit Bool Bool)
          [.subscribe false () true, .moveConstruct true false, .broadcast (), .destroy true]) := by
  have hnames : Steps.Along step NamesHandles (empty : Subscriptions Unit Bool Bool)
      [.subscribe false () true, .moveConstruct true false, .broadcast (), .destroy true] := by
    refine ⟨rfl, fun r hr => ?_⟩
    obtain rfl := Option.get_of_eq_some (by rfl) hr
    refine ⟨⟨rfl, rfl⟩, fun r hr => ?_⟩
    obtain rfl := Option.get_of_eq_some (by rfl) hr
    refine ⟨trivial, fun r hr => ?_⟩
    obtain rfl := Option.get_of_eq_some (by rfl) hr
    exact ⟨rfl, fun _ _ => trivial⟩
  exact ⟨hnames, always_exact_iff hnames⟩

/-- The handle of one subscription is assigned the other one. -/
theorem not_always_exact :
    ¬ ∀ calls : List (SubscriptionCall Unit Bool Bool), Steps.Along step NamesHandles empty calls →
      Steps.Always step (fun _ _ (w : Subscriptions Unit Bool Bool) => w.Exact) empty calls := by
  intro h
  obtain ⟨r, hr, -, r', hr', -, s, hs, hexact, -⟩ :=
    h [.subscribe false () false, .subscribe true () true, .moveAssign false true] (by
      refine ⟨rfl, fun r hr => ?_⟩
      obtain rfl := Option.get_of_eq_some (by rfl) hr
      refine ⟨rfl, fun r hr => ?_⟩
      obtain rfl := Option.get_of_eq_some (by rfl) hr
      exact ⟨⟨rfl, rfl⟩, fun _ _ => trivial⟩)
  obtain rfl := Option.get_of_eq_some (by rfl) hr
  obtain rfl := Option.get_of_eq_some (by rfl) hr'
  obtain rfl := Option.get_of_eq_some (by rfl) hs
  have hlost := hexact.deleted 0 (Nat.succ_pos 1) fun ⟨this, hthis⟩ => by
    cases this <;> cases hthis
  cases hlost

end Subscriptions

end SRCommon
