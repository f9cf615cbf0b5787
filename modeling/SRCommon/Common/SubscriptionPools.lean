import Mathlib.Data.Set.Card
import SRCommon.Common.SubscriptionHolder
import SRCommon.Types.FreeList

/-!
# What a holder tracks

The pools of a holder have a slot for every info that is not deleted, and none
for the others, through all subscriptions that are made and given up.
-/

namespace SRCommon

/-! ## Pools -/

namespace ObjectPool

variable {bits : ℕ} {T : Type} {p : ObjectPool bits T}

theorem Exact.forEach_eq (h : p.Exact) :
    p.forEach = (p.objects.filter Prod.fst).map Prod.snd := by
  rw [forEach]
  split
  next hempty =>
    have hzero := h.liveCount_eq_zero_iff.mpr (of_decide_eq_true hempty).symm
    rw [liveCount, List.countP_eq_length_filter, List.length_eq_zero_iff] at hzero
    rw [hzero, List.map_nil]
  · rfl

theorem Exact.mem_forEach (h : p.Exact) {object : T} :
    object ∈ p.forEach ↔ ∃ i, p.at? i = some object := by
  simp only [h.forEach_eq, List.mem_map, List.mem_filter, at?_eq_some]
  constructor
  · rintro ⟨⟨alive, object⟩, ⟨hmem, rfl⟩, rfl⟩
    exact List.mem_iff_getElem?.mp hmem
  · rintro ⟨i, hi⟩
    exact ⟨(true, object), ⟨List.mem_of_getElem? hi, rfl⟩, rfl⟩

theorem Exact.length_forEach (h : p.Exact) : p.forEach.length = p.liveCount := by
  rw [h.forEach_eq, List.length_map, liveCount, List.countP_eq_length_filter]

theorem Exact.nodup_forEach (h : p.Exact)
    (hinj : ∀ i j object, p.at? i = some object → p.at? j = some object → i = j) :
    p.forEach.Nodup := by
  rw [h.forEach_eq, List.Nodup, List.pairwise_map, List.pairwise_filter,
    List.pairwise_iff_getElem]
  intro i j hi hj hlt hfst hfst' heq
  have hslot : p.at? i = some p.objects[i].2 := by
    rw [at?_eq_some, List.getElem?_eq_getElem hi]
    exact congrArg some (Prod.ext hfst rfl)
  have hslot' : p.at? j = some p.objects[i].2 := by
    rw [at?_eq_some, List.getElem?_eq_getElem hj, heq]
    exact congrArg some (Prod.ext hfst' rfl)
  exact absurd (hinj i j _ hslot hslot') hlt.ne

/-- An exact pool has a place for every object. -/
theorem Exact.exists_add (h : p.Exact) (object : T) : ∃ r, p.add object = some r := by
  rw [add]
  split
  · exact ⟨_, rfl⟩
  next index rest hfree =>
    obtain ⟨dead, hdead⟩ := (h.mem_iff index).mp (hfree ▸ List.mem_cons_self)
    rw [if_pos (lt_length_of_getElem? hdead)]
    exact ⟨_, rfl⟩

/-- `Add` puts the object into one slot, which was not alive. -/
theorem Sound.add_at? (h : p.Sound) (object : T) (hcount : p.liveCount + 1 < 2 ^ 32)
    (hbits : 32 ≤ bits) :
    ∃ index p', p.add object = some (index, p') ∧ p'.Sound ∧
      ∀ i other, p'.at? i = some other ↔ i = index ∧ other = object ∨ p.at? i = some other := by
  have hpow : 2 ^ 32 ≤ 2 ^ bits := Nat.pow_le_pow_right (Nat.succ_pos 1) hbits
  have hsum := h.exact.liveCount_add
  cases hfree : p.freeIndices with
  | nil =>
      rw [hfree, List.length_nil] at hsum
      obtain ⟨p', hadd, hsound, hobjects⟩ :=
        h.add_of_full object hfree (by omega) hcount
      refine ⟨p.objects.length, p', hadd, hsound, fun i other => ?_⟩
      rw [at?_eq_some, at?_eq_some, hobjects]
      rcases lt_trichotomy i p.objects.length with hlt | rfl | hgt
      · simp [List.getElem?_append_left hlt, hlt.ne]
      · simp [eq_comm]
      · simp [hgt.ne', hgt, hgt.le]
  | cons index rest =>
      obtain ⟨p', hadd, hsound, ⟨dead, hdead⟩, hobjects⟩ := h.add_of_free object hfree hcount
      refine ⟨index, p', hadd, hsound, fun i other => ?_⟩
      rw [at?_eq_some, at?_eq_some, hobjects]
      rcases eq_or_ne index i with rfl | hne
      · simp only [List.getElem?_set_self (lt_length_of_getElem? hdead), hdead]
        simp [eq_comm]
      · simp [List.getElem?_set_ne hne, hne.symm]

end ObjectPool

/-! ## The holder -/

namespace SubscriptionHolder

variable {α κ : Type} {t t' : SubscriptionHolder α κ} {a : ℕ} {id : α} {callback : κ}
  {info : SubscriptionInternalInfo α κ}

/-- Every info that is not deleted has the slot that it names, and no other. -/
structure Tracks (t : SubscriptionHolder α κ) : Prop where
  sound : ∀ id p, t.subscriptions id = some p → p.Sound
  of_slot : ∀ id p i a, t.subscriptions id = some p → p.at? i = some a →
    ∃ info, t.info a = some info ∧ info.id = id ∧ info.index = i
  slot : ∀ a info, t.info a = some info →
    ∃ p, t.subscriptions info.id = some p ∧ p.at? info.index = some a
  nodup : t.deleted.Nodup
  lt : ∀ a ∈ t.deleted, a < t.infos.length
  count : t.count.toNat + t.deleted.length = t.infos.length

theorem tracks_empty : (empty : SubscriptionHolder α κ).Tracks where
  sound _ _ h := by cases h
  of_slot _ _ _ _ h := by cases h
  slot a info h := by cases h
  nodup := List.nodup_nil
  lt _ h := by cases h
  count := rfl

theorem info_eq_some :
    t.info a = some info ↔ a ∉ t.deleted ∧ t.infos[a]? = some info := by
  rw [SubscriptionHolder.info]
  split <;> simp [*]

theorem isSome_info : (t.info a).isSome ↔ a < t.infos.length ∧ a ∉ t.deleted := by
  rw [SubscriptionHolder.info]
  split <;> simp [*]

/-- The infos that are not deleted. -/
def live (t : SubscriptionHolder α κ) : Finset ℕ :=
  Finset.range t.infos.length \ t.deleted.toFinset

theorem mem_live : a ∈ t.live ↔ (t.info a).isSome := by
  rw [isSome_info, live, Finset.mem_sdiff, Finset.mem_range, List.mem_toFinset]

theorem Tracks.card_live (h : t.Tracks) : t.live.card = t.count.toNat := by
  have hsub : t.deleted.toFinset ⊆ Finset.range t.infos.length := fun a ha =>
    Finset.mem_range.mpr (h.lt a (List.mem_toFinset.mp ha))
  have hcount := h.count
  rw [live, Finset.card_sdiff_of_subset hsub, Finset.card_range,
    List.toFinset_card_of_nodup h.nodup]
  omega

theorem Tracks.slot_unique (h : t.Tracks) {p : ObjectPool 32 ℕ}
    (hp : t.subscriptions id = some p) (i j a : ℕ) (hi : p.at? i = some a)
    (hj : p.at? j = some a) : i = j := by
  obtain ⟨info, hinfo, -, rfl⟩ := h.of_slot id p i a hp hi
  obtain ⟨info', hinfo', -, rfl⟩ := h.of_slot id p j a hp hj
  rw [Option.some.inj (hinfo.symm.trans hinfo')]

/-- A pool has no more objects than there are subscriptions. -/
theorem Tracks.liveCount_le (h : t.Tracks) {p : ObjectPool 32 ℕ}
    (hp : t.subscriptions id = some p) : p.liveCount ≤ t.count.toNat := by
  have hexact := (h.sound id p hp).exact
  have hnodup := hexact.nodup_forEach (h.slot_unique hp)
  rw [← hexact.length_forEach, ← h.card_live, ← List.toFinset_card_of_nodup hnodup]
  refine Finset.card_le_card fun a ha => ?_
  obtain ⟨i, hi⟩ := hexact.mem_forEach.mp (List.mem_toFinset.mp ha)
  obtain ⟨info, hinfo, -⟩ := h.of_slot id p i a hp hi
  rw [mem_live, hinfo]
  rfl

/-- The loop of `Broadcast` over infos that are not deleted. -/
theorem exists_called {l : List ℕ} (hl : ∀ a ∈ l, (t.info a).isSome) :
    ∃ called, l.mapM (fun a => (t.info a).map fun info => (a, info.callback)) = some called ∧
      called.map Prod.fst = l ∧ ∀ a callback, (a, callback) ∈ called ↔
        a ∈ l ∧ ∃ info, t.info a = some info ∧ info.callback = callback := by
  induction l with
  | nil => exact ⟨[], rfl, rfl, fun a callback => by simp⟩
  | cons b l ih =>
      rw [List.forall_mem_cons] at hl
      obtain ⟨info, hinfo⟩ := Option.isSome_iff_exists.mp hl.1
      obtain ⟨called, hcalled, hfst, hmem⟩ := ih hl.2
      refine ⟨(b, info.callback) :: called, ?_, ?_, fun a callback => ?_⟩
      · rw [List.mapM_cons, hinfo, hcalled]
        rfl
      · rw [List.map_cons, hfst]
      · rw [List.mem_cons, List.mem_cons, hmem]
        constructor
        · rintro (heq | ⟨ha, hcallback⟩)
          · cases heq
            exact ⟨.inl rfl, info, hinfo, rfl⟩
          · exact ⟨.inr ha, hcallback⟩
        · rintro ⟨rfl | ha, info', hinfo', rfl⟩
          · rw [Option.some.inj (hinfo.symm.trans hinfo')]
            exact .inl rfl
          · exact .inr ⟨ha, info', hinfo', rfl⟩

theorem Tracks.broadcast (h : t.Tracks) (id : α) :
    ∃ called, t.broadcast id = some called ∧ (called.map Prod.fst).Nodup ∧
      ∀ a callback, (a, callback) ∈ called ↔
        ∃ info, t.info a = some info ∧ info.id = id ∧ info.callback = callback := by
  rw [SubscriptionHolder.broadcast]
  cases hp : t.subscriptions id with
  | none =>
      refine ⟨[], rfl, List.nodup_nil, fun a callback => ?_⟩
      refine iff_of_false List.not_mem_nil fun ⟨info, hinfo, hid, _⟩ => ?_
      obtain ⟨p, hp', -⟩ := h.slot a info hinfo
      rw [hid, hp] at hp'
      cases hp'
  | some p =>
      have hexact := (h.sound id p hp).exact
      have hlisted : ∀ a, a ∈ p.forEach ↔ ∃ info, t.info a = some info ∧ info.id = id := by
        intro a
        rw [hexact.mem_forEach]
        constructor
        · rintro ⟨i, hi⟩
          obtain ⟨info, hinfo, hid, -⟩ := h.of_slot id p i a hp hi
          exact ⟨info, hinfo, hid⟩
        · rintro ⟨info, hinfo, hid⟩
          obtain ⟨p', hp', hat⟩ := h.slot a info hinfo
          rw [hid, hp] at hp'
          cases hp'
          exact ⟨info.index, hat⟩
      obtain ⟨called, hcalled, hfst, hmem⟩ := exists_called (t := t) (l := p.forEach) fun a ha => by
        obtain ⟨info, hinfo, -⟩ := (hlisted a).mp ha
        rw [hinfo]
        rfl
      refine ⟨called, hcalled, ?_, fun a callback => ?_⟩
      · rw [hfst]
        exact hexact.nodup_forEach (h.slot_unique hp)
      · rw [hmem, hlisted]
        constructor
        · rintro ⟨⟨info, hinfo, hid⟩, info', hinfo', hcallback⟩
          rw [Option.some.inj (hinfo'.symm.trans hinfo)] at hcallback
          exact ⟨info, hinfo, hid, hcallback⟩
        · rintro ⟨info, hinfo, hid, hcallback⟩
          exact ⟨⟨info, hinfo, hid⟩, info, hinfo, hcallback⟩

/-! ## Changes of the holder -/

/-- The pool of an id, which is made when it is first needed. -/
def pool (t : SubscriptionHolder α κ) (id : α) : ObjectPool 32 ℕ :=
  (t.subscriptions id).getD {}

theorem Tracks.sound_pool (h : t.Tracks) (id : α) : (t.pool id).Sound := by
  rw [pool]
  cases hp : t.subscriptions id with
  | none => exact ObjectPool.sound_empty
  | some p => exact h.sound id p hp

theorem Tracks.at?_pool (h : t.Tracks) (i : ℕ) :
    (t.pool id).at? i = some a ↔ ∃ info, t.info a = some info ∧ info.id = id ∧ info.index = i := by
  constructor
  · intro hat
    rw [pool] at hat
    cases hp : t.subscriptions id with
    | none =>
        rw [hp] at hat
        cases hat
    | some p =>
        rw [hp] at hat
        exact h.of_slot id p i a hp hat
  · rintro ⟨info, hinfo, rfl, rfl⟩
    obtain ⟨p, hp, hat⟩ := h.slot a info hinfo
    rw [pool, hp]
    exact hat

theorem Tracks.liveCount_pool_le (h : t.Tracks) (id : α) :
    (t.pool id).liveCount ≤ t.count.toNat := by
  rw [pool]
  cases hp : t.subscriptions id with
  | none => exact Nat.zero_le _
  | some p => exact h.liveCount_le hp

/-- A holder tracks its infos when its pools do. -/
theorem tracks_of_pools (hsound : ∀ id, (t.pool id).Sound)
    (hat : ∀ id i a, (t.pool id).at? i = some a ↔
      ∃ info, t.info a = some info ∧ info.id = id ∧ info.index = i)
    (hnodup : t.deleted.Nodup) (hlt : ∀ a ∈ t.deleted, a < t.infos.length)
    (hcount : t.count.toNat + t.deleted.length = t.infos.length) : t.Tracks where
  sound id p hp := by
    have hpool := hsound id
    rwa [pool, hp] at hpool
  of_slot id p i a hp hi := by
    rw [← hat id i a, pool, hp]
    exact hi
  slot a info hinfo := by
    have hslot := (hat info.id info.index a).mpr ⟨info, hinfo, rfl, rfl⟩
    rw [pool] at hslot
    cases hp : t.subscriptions info.id with
    | none =>
        rw [hp] at hslot
        cases hslot
    | some p =>
        rw [hp] at hslot
        exact ⟨p, rfl, hslot⟩
  nodup := hnodup
  lt := hlt
  count := hcount

/-- The holder counts what is not deleted. -/
theorem Tracks.count_pred (h : t.Tracks) (ha : (t.info a).isSome) :
    (t.count - 1).toNat + 1 = t.count.toNat := by
  have hpos : 0 < t.count.toNat := by
    rw [← h.card_live]
    exact Finset.card_pos.mpr ⟨a, mem_live.mpr ha⟩
  rw [UInt32.toNat_sub_of_le t.count 1 (UInt32.le_iff_toNat_le.mpr hpos)]
  exact Nat.succ_pred_eq_of_pos hpos

variable [DecidableEq α]

theorem pool_update {p : ObjectPool 32 ℕ}
    (ht' : t'.subscriptions = Function.update t.subscriptions id (some p)) (id' : α) :
    t'.pool id' = if id' = id then p else t.pool id' := by
  rw [pool, pool, ht']
  rcases eq_or_ne id' id with rfl | hne
  · rw [if_pos rfl, Function.update_self, Option.getD_some]
  · rw [if_neg hne, Function.update_of_ne hne]

theorem Tracks.exists_subscribe (h : t.Tracks) (id : α) (callback : κ) :
    ∃ t', t.subscribe id callback = some t' ∧ t'.count = t.count + 1 := by
  obtain ⟨r, hr⟩ := (h.sound_pool id).exact.exists_add t.infos.length
  rw [pool] at hr
  rw [SubscriptionHolder.subscribe, hr]
  exact ⟨_, rfl, rfl⟩

theorem Tracks.subscribe (h : t.Tracks) (hcount : t.count.toNat + 1 < 2 ^ 32) (id : α)
    (callback : κ) :
    ∃ t', t.subscribe id callback = some t' ∧ t'.Tracks ∧ t'.deleted = t.deleted ∧
      ∃ info : SubscriptionInternalInfo α κ, t'.infos = t.infos ++ [info] := by
  have hlive := h.liveCount_pool_le id
  obtain ⟨index, p', hadd, hsound, hat⟩ :=
    (h.sound_pool id).add_at? t.infos.length (by omega) le_rfl
  let new : SubscriptionInternalInfo α κ := { index, callback, id }
  let t' : SubscriptionHolder α κ :=
    { t with
      subscriptions := Function.update t.subscriptions id (some p')
      infos := t.infos ++ [new]
      count := t.count + 1 }
  have hlen : t.infos.length ∉ t.deleted := fun hmem => lt_irrefl _ (h.lt _ hmem)
  have hinfo : ∀ b info, t'.info b = some info ↔
      b = t.infos.length ∧ info = new ∨ t.info b = some info := by
    intro b info
    rw [info_eq_some, info_eq_some]
    change b ∉ t.deleted ∧ (t.infos ++ [new])[b]? = some info ↔ _
    rcases lt_trichotomy b t.infos.length with hlt | rfl | hgt
    · simp [List.getElem?_append_left hlt, hlt.ne]
    · simp [hlen, eq_comm]
    · simp [hgt.ne', hgt, hgt.le]
  refine ⟨t', ?_, tracks_of_pools (fun id' => ?_) (fun id' i b => ?_) h.nodup (fun b hb => ?_) ?_,
    rfl, new, rfl⟩
  · rw [pool] at hadd
    rw [SubscriptionHolder.subscribe, hadd]
    rfl
  · rw [pool_update (t := t) rfl]
    split
    · exact hsound
    · exact h.sound_pool id'
  · simp only [hinfo, or_and_right, exists_or, ← h.at?_pool]
    rw [pool_update (t := t) rfl]
    rcases eq_or_ne id' id with rfl | hne
    · rw [if_pos rfl, hat]
      refine or_congr_left ⟨?_, ?_⟩
      · rintro ⟨rfl, rfl⟩
        exact ⟨new, ⟨rfl, rfl⟩, rfl, rfl⟩
      · rintro ⟨info, ⟨rfl, rfl⟩, -, rfl⟩
        exact ⟨rfl, rfl⟩
    · rw [if_neg hne, or_iff_right]
      rintro ⟨info, ⟨-, rfl⟩, hid, -⟩
      exact hne hid.symm
  · rw [List.length_append, List.length_singleton]
    exact (h.lt b hb).trans (Nat.lt_succ_self _)
  · have hadd1 : (t.count + 1).toNat = t.count.toNat + 1 := by
      rw [UInt32.toNat_add]
      exact Nat.mod_eq_of_lt hcount
    have hcount' := h.count
    change (t.count + 1).toNat + t.deleted.length = (t.infos ++ [new]).length
    rw [hadd1, List.length_append, List.length_singleton]
    omega

/-- The slot that is given up is the one of the deleted info. -/
theorem Tracks.at?_erased (h : t.Tracks) (hinfo : t.info a = some info) {p' : ObjectPool 32 ℕ}
    (hat : ∀ i, p'.at? i = if i = info.index then none else (t.pool info.id).at? i)
    (hpools : ∀ id, t'.pool id = if id = info.id then p' else t.pool id) {i b : ℕ} :
    (t'.pool id).at? i = some b ↔ b ≠ a ∧ (t.pool id).at? i = some b := by
  have hgone : ∀ other, t.info a = some other → other = info := fun other hother =>
    Option.some.inj (hother.symm.trans hinfo)
  rw [hpools]
  rcases eq_or_ne id info.id with rfl | hne
  · rw [if_pos rfl, hat]
    rcases eq_or_ne i info.index with rfl | hi
    · have hslot := (h.at?_pool info.index).mpr ⟨info, hinfo, rfl, rfl⟩
      rw [if_pos rfl, hslot]
      simp [eq_comm]
    · rw [if_neg hi, iff_and_self, h.at?_pool]
      rintro ⟨other, hother, -, hindex⟩ rfl
      exact hi (hindex.symm.trans (congrArg _ (hgone other hother)))
  · rw [if_neg hne, iff_and_self, h.at?_pool]
    rintro ⟨other, hother, hid, -⟩ rfl
    exact hne (hid.symm.trans (congrArg _ (hgone other hother)))

theorem Tracks.unsubscribe (h : t.Tracks) (ha : (t.info a).isSome) :
    ∃ t', t.unsubscribe a = some t' ∧ t'.Tracks ∧ t'.infos = t.infos ∧
      t'.deleted = t.deleted ++ [a] := by
  obtain ⟨info, hinfo⟩ := Option.isSome_iff_exists.mp ha
  obtain ⟨hnotMem, hget⟩ := info_eq_some.mp hinfo
  obtain ⟨p, hp, hslot⟩ := h.slot a info hinfo
  have halive : p.isAlive info.index :=
    ObjectPool.isAlive_eq_true.mpr ⟨a, ObjectPool.at?_eq_some.mp hslot⟩
  obtain ⟨object, p', hremove, hsound, hat⟩ := (h.sound _ p hp).removeByIndex id halive
  let t' : SubscriptionHolder α κ :=
    { t with
      subscriptions := Function.update t.subscriptions info.id (some p')
      deleted := t.deleted ++ [a]
      count := t.count - 1 }
  have hinfo' : ∀ b info', t'.info b = some info' ↔ b ≠ a ∧ t.info b = some info' := by
    intro b info'
    rw [info_eq_some, info_eq_some]
    change b ∉ t.deleted ++ [a] ∧ t.infos[b]? = some info' ↔ _
    rw [List.mem_append, List.mem_singleton, not_or, and_assoc, and_left_comm]
  have hpool : t.pool info.id = p := by rw [pool, hp, Option.getD_some]
  refine ⟨t', ?_, tracks_of_pools (fun id' => ?_) (fun id' i b => ?_) ?_ (fun b hb => ?_) ?_,
    rfl, rfl⟩
  · rw [SubscriptionHolder.unsubscribe, hinfo, Option.bind_some, hp]
    dsimp only
    rw [hremove]
    rfl
  · rw [pool_update (t := t) rfl]
    split
    · exact hsound
    · exact h.sound_pool id'
  · have hpools : ∀ id, t'.pool id = if id = info.id then p' else t.pool id := pool_update rfl
    rw [h.at?_erased hinfo (hpool ▸ hat) hpools, h.at?_pool]
    simp only [hinfo', and_assoc, exists_and_left]
  · exact List.nodup_append.mpr ⟨h.nodup, List.nodup_singleton a, fun b hb c hc heq =>
      hnotMem (List.mem_singleton.mp hc ▸ heq ▸ hb)⟩
  · rcases List.mem_append.mp hb with hb | hb
    · exact h.lt b hb
    · rw [List.mem_singleton.mp hb]
      exact (List.getElem?_eq_some_iff.mp hget).1
  · have hcount := h.count
    have hpred := h.count_pred ha
    change (t.count - 1).toNat + (t.deleted ++ [a]).length = t.infos.length
    rw [List.length_append, List.length_singleton]
    omega

end SubscriptionHolder

end SRCommon
