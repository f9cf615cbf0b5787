import SRCommon.ECS.EntityPaths

/-!
# Relative paths

Where a path leads that `CalculateRelativePath` has written, in a scene whose
siblings have different names. It depends on how many objects the ways to the
owner and to the target have in common.
-/

namespace SRCommon

namespace SceneTree

open ListSearch (commonPrefix commonPrefix_cons commonPrefix_le_left commonPrefix_le_right
  commonPrefix_take take_commonPrefix)

open ParentForest (Descends descends_append)

section

variable {ι κ ν : Type} {t : SceneTree ι κ ν} {r r' : List ι} {owner target : Entity ι κ} {d k : ℕ}

def DistinctNames (t : SceneTree ι κ ν) : Prop := ∀ o, ((t.siblings o).map t.name).Nodup

/-- The object at a depth of a way; at depth zero there is none. -/
def atDepth (r : List ι) (d : ℕ) : Option ι := (r.take d).getLast?

theorem atDepth_zero : atDepth r 0 = none := by
  rw [atDepth, List.take_zero]
  rfl

theorem IsWay.atDepth_length {o : Option ι} (h : t.IsWay o r) : atDepth r r.length = o := by
  rw [atDepth, List.take_length, h.getLast?]

theorem atDepth_succ (h : d < r.length) : atDepth r (d + 1) = some r[d] := by
  rw [atDepth, List.take_succ_eq_append_getElem h, List.getLast?_append]
  rfl

theorem atDepth_eq_some_iff (hd : d ≤ r.length) : (atDepth r d).isSome ↔ 1 ≤ d := by
  cases d with
  | zero => simp [atDepth_zero]
  | succ d => simp [atDepth_succ hd]

theorem atDepth_inj (hr : r.Nodup) (hd : d ≤ r.length) (hk : k ≤ r.length) :
    atDepth r d = atDepth r k ↔ d = k := by
  constructor
  · intro h
    have hsome : 1 ≤ d ↔ 1 ≤ k := by
      rw [← atDepth_eq_some_iff hd, h, atDepth_eq_some_iff hk]
    obtain _ | d := d
    · omega
    obtain _ | k := k
    · omega
    rw [atDepth_succ hd, atDepth_succ hk] at h
    rw [hr.getElem_inj_iff.mp (Option.some.inj h)]
  · rintro rfl
    rfl

/-- The parent of an object of the way is the one before it. -/
theorem parent_atDepth {i : ι} (h : Descends t.parent none r) (hd : d < r.length)
    (hi : atDepth r (d + 1) = some i) : t.parent i = atDepth r d := by
  rw [atDepth_succ hd] at hi
  cases hi
  have hsplit : r.take d ++ r[d] :: r.drop (d + 1) = r := by
    rw [← List.drop_eq_getElem_cons hd, List.take_append_drop]
  rw [← hsplit] at h
  obtain ⟨-, hparent, -⟩ := descends_append.mp h
  simpa [atDepth] using hparent

/-- The objects that the first step to the parent passes over. -/
def skipped : Entity ι κ → ℕ
  | .object _ => 1
  | .component _ => 0

theorem here_ofEntity {p : Option ι} : t.here (.ofEntity owner) (p.map .object) =
    (p.or (t.objectOf owner)).map some := by
  cases p <;> rfl

theorem holder_ofEntity {p : Option ι} : t.holder (.ofEntity owner) (p.map .object) =
    if p.isSome ∨ (t.objectOf owner).isSome then some p else none := by
  cases p with
  | some i => simp [holder]
  | none =>
      cases owner with
      | object => rfl
      | component c =>
          change (if (t.owner c).isSome = true then some none else none) =
            if false = true ∨ (t.owner c).isSome = true then some none else none
          simp

/-- Where the first steps to the parent lead. -/
def climbed (owner : Entity ι κ) (r : List ι) (steps : ℕ) : Option ι :=
  if steps = 0 then none else atDepth r (r.length - (steps + skipped owner))

theorem actionParent_component {c : κ} {i : ι} (hc : t.owner c = some i) :
    t.actionParent (.ofEntity (.component c)) none = (t.parent i).map .object := by
  simp [actionParent, OwnerRef.ofEntity, hc]

theorem actionParent_object {i j : ι} (hj : t.parent j = some i) :
    t.actionParent (.ofEntity (.object j)) none = (t.parent i).map .object := by
  simp [actionParent, OwnerRef.ofEntity, hj]

theorem actionParent_climbed (h : t.IsWay (t.objectOf owner) r) {steps : ℕ}
    (hsteps : steps + 1 + skipped owner ≤ r.length) :
    t.actionParent (.ofEntity owner) ((climbed owner r steps).map .object) =
      (climbed owner r (steps + 1)).map .object := by
  obtain ⟨d, hd⟩ : ∃ d, r.length = steps + 1 + skipped owner + d := Nat.exists_eq_add_of_le hsteps
  have hclimbed : climbed owner r (steps + 1) = atDepth r d := by
    rw [climbed, if_neg (by omega)]
    congr 1
    omega
  obtain ⟨i, hi⟩ := Option.isSome_iff_exists.mp ((atDepth_eq_some_iff (r := r) (d := d + 1)
    (by omega)).mpr (by omega))
  rw [hclimbed, ← parent_atDepth h.descends (by omega) hi]
  cases steps with
  | succ steps =>
      have hpos : climbed owner r (steps + 1) = some i := by
        rw [climbed, if_neg (by omega), ← hi]
        congr 1
        omega
      rw [hpos]
      rfl
  | zero =>
      have hlast := h.atDepth_length
      rw [climbed, if_pos rfl]
      cases owner with
      | component c =>
          have hlength : r.length = d + 1 := by
            rw [hd, skipped]
            omega
          exact actionParent_component (hlast.symm.trans (hlength ▸ hi))
      | object j =>
          have hlength : r.length = d + 1 + 1 := by
            rw [hd, skipped]
            omega
          refine actionParent_object ((parent_atDepth h.descends (by omega) ?_).trans hi)
          exact hlength ▸ hlast

theorem skipped_le (owner : Entity ι κ) : skipped owner ≤ 1 := by
  cases owner <;> simp [skipped]

theorem skipped_le_length (h : t.IsWay (t.objectOf owner) r) : skipped owner ≤ r.length := by
  cases owner with
  | object i =>
      have hlast : r.getLast? = some i := h.getLast?
      cases r with
      | nil => cases hlast
      | cons => exact Nat.succ_le_succ (Nat.zero_le _)
  | component c => exact Nat.zero_le _

/-- What is found from where the steps to the parents have led. -/
theorem climbed_or_iff (h : t.IsWay (t.objectOf owner) r) {steps : ℕ}
    (hsteps : steps + skipped owner ≤ r.length) (hk : k ≤ r.length) :
    (climbed owner r steps).or (t.objectOf owner) = atDepth r k ↔
      if steps = 0 ∨ steps + skipped owner = r.length then k = r.length
      else k + (steps + skipped owner) = r.length := by
  have hd : r.length - (steps + skipped owner) ≤ r.length := Nat.sub_le _ _
  have htop : atDepth r r.length = atDepth r k ↔ k = r.length :=
    (atDepth_inj h.nodup (Nat.le_refl _) hk).trans eq_comm
  rw [climbed, ← h.atDepth_length]
  rcases Nat.eq_zero_or_pos steps with rfl | hpos
  · rw [if_pos rfl, if_pos (.inl rfl), Option.none_or, htop]
  rw [if_neg (by omega)]
  by_cases hall : steps + skipped owner = r.length
  · rw [if_pos (.inr hall), hall, Nat.sub_self, atDepth_zero, Option.none_or, htop]
  · rw [if_neg (by omega)]
    have hsome := (atDepth_eq_some_iff hd).mpr (by omega)
    rw [Option.or_of_isSome hsome, atDepth_inj h.nodup hd hk]
    omega

/-- An owner that is in no object has nothing to climb. -/
theorem climbed_or_objectOf (h : t.IsWay (t.objectOf owner) r) {steps : ℕ} :
    (climbed owner r steps).isSome ∨ (t.objectOf owner).isSome ↔ 0 < r.length := by
  rw [← h.atDepth_length, atDepth_eq_some_iff (Nat.le_refl _)]
  constructor
  · rintro (hclimbed | hpos)
    · rw [List.length_pos_iff]
      rintro rfl
      simp [climbed, atDepth] at hclimbed
    · exact hpos
  · exact .inr

theorem climbed_eq_iff (h : t.IsWay (t.objectOf owner) r) {steps : ℕ}
    (hsteps : steps + skipped owner ≤ r.length) (hk : k ≤ r.length) :
    climbed owner r steps = atDepth r k ↔
      if steps = 0 then k = 0 else k + (steps + skipped owner) = r.length := by
  rw [climbed]
  rcases Nat.eq_zero_or_pos steps with rfl | hpos
  · rw [if_pos rfl, if_pos rfl, ← atDepth_zero (r := r), atDepth_inj h.nodup (Nat.zero_le _) hk,
      eq_comm]
  · rw [if_neg (by omega), if_neg (by omega), atDepth_inj h.nodup (Nat.sub_le _ _) hk]
    omega

end

section

variable {ν : Type} {fromPath targetPath : RefPath ν} {k : ℕ}

/-- The count is right as long as the last index but one fits. -/
theorem parentSteps_of_lt (hsize : fromPath.length < 2 ^ 31 + 2) :
    parentSteps fromPath k = fromPath.length - 1 - k := by
  rw [parentSteps, Int.bmod_def]
  split <;> omega

theorem parentSteps_of_ge (hsize : 2 ^ 31 + 2 ≤ fromPath.length) :
    (parentSteps fromPath k = 0 ∨ parentSteps fromPath k + k + 1 < fromPath.length) ∧
      (parentSteps fromPath 0 = 0 ↔ 2 ^ 31 ≤ (fromPath.length - 2) % 2 ^ 32) := by
  rw [parentSteps, parentSteps, Int.bmod_def]
  split <;> omega

theorem offset_eq [DecidableEq ν] (hsize : targetPath.length < 2 ^ 31) :
    offset fromPath targetPath = commonPrefix fromPath targetPath := by
  have hmin : (Int.bmod (min fromPath.length targetPath.length) (2 ^ 32)).toNat =
      min fromPath.length targetPath.length := by
    rw [Int.bmod_def]
    split <;> omega
  have hoffset : offset fromPath targetPath =
      commonPrefix (fromPath.take (min fromPath.length targetPath.length)) targetPath := by
    rw [offset, hmin]
  rw [hoffset]
  rcases Nat.le_total fromPath.length targetPath.length with hle | hle
  · rw [Nat.min_eq_left hle, List.take_length]
  · rw [Nat.min_eq_right hle, commonPrefix_take (Nat.le_refl _)]

end

section

variable {ι κ ν : Type} {t : SceneTree ι κ ν} {r : List ι} {owner : Entity ι κ} [DecidableEq ν]

theorem foldlM_parents [Inhabited ν] (h : t.IsWay (t.objectOf owner) r) {steps : ℕ}
    (hsteps : steps + skipped owner ≤ r.length) :
    (List.replicate steps parentItem).foldlM (t.follow (.ofEntity owner)) none =
      .ok ((climbed owner r steps).map .object) := by
  induction steps with
  | zero => rfl
  | succ steps ih =>
      rw [List.replicate_succ', List.foldlM_append, ih (by omega)]
      change [parentItem].foldlM (t.follow (.ofEntity owner)) _ = _
      rw [foldlM_singleton]
      exact congrArg Except.ok (actionParent_climbed h (by omega))

variable [DecidableEq ι]

theorem objectItem_inj (hnames : t.DistinctNames) {i j : ι} (h : t.parent i = t.parent j) :
    t.objectItem i = t.objectItem j ↔ i = j := by
  constructor
  · intro hitem
    have hname : t.name i = t.name j := congrArg PathItem.name hitem
    exact List.inj_on_of_nodup_map (hnames (t.parent j)) (mem_siblings.mpr h)
      (mem_siblings.mpr rfl) hname
  · rintro rfl
    rfl

end

section

variable {ι κ ν : Type} {t : SceneTree ι κ ν} {r r' : List ι} {owner target : Entity ι κ} {k : ℕ}
  [DecidableEq ι] [DecidableEq κ] [DecidableEq ν]

theorem length_pathOf (t : SceneTree ι κ ν) (r : List ι) (owner : Entity ι κ) :
    (t.pathOf r owner).length + skipped owner = r.length + 1 := by
  cases owner <;> simp [pathOf, skipped]

theorem pathOf_cons {i : ι} : t.pathOf (i :: r) owner = t.objectItem i :: t.pathOf r owner := by
  cases owner <;> rfl

theorem objectItem_ne (i : ι) (c : κ) : t.objectItem i ≠ t.componentItem c := by
  intro h
  have haction : Action.child = Action.component := congrArg PathItem.action h
  cases haction

/-- The paths of owner and target have the steps of the common objects in common, and the last step
too where both are components of the same object or of the scene and are counted alike. -/
theorem commonPrefix_pathOf (owner target : Entity ι κ) (hnames : t.DistinctNames) {o : Option ι}
    (h : Descends t.parent o r) (h' : Descends t.parent o r') :
    commonPrefix (t.pathOf r owner) (t.pathOf r' target) = commonPrefix r r' ∨
      r.length = r'.length ∧ commonPrefix r r' = r.length ∧
        commonPrefix (t.pathOf r owner) (t.pathOf r' target) = r.length + 1 := by
  induction r generalizing o r' with
  | nil =>
      cases r' with
      | nil =>
          rcases Nat.eq_zero_or_pos (commonPrefix (t.pathOf [] owner) (t.pathOf [] target)) with
            hzero | hpos
          · exact .inl hzero
          · refine .inr ⟨rfl, rfl, ?_⟩
            have hle := commonPrefix_le_left (t.pathOf [] owner) (t.pathOf [] target)
            have hlength := length_pathOf t [] owner
            rw [List.length_nil] at hlength ⊢
            omega
      | cons j r' =>
          left
          cases owner with
          | object => rfl
          | component c =>
              rw [pathOf_cons]
              exact if_neg (objectItem_ne j c).symm
  | cons i r ih =>
      cases r' with
      | nil =>
          left
          rw [pathOf_cons]
          cases target with
          | object => rfl
          | component c => exact if_neg (objectItem_ne i c)
      | cons j r' =>
          rw [pathOf_cons, pathOf_cons, commonPrefix_cons, commonPrefix_cons,
            if_congr (objectItem_inj hnames (h.1.trans h'.1.symm)) rfl rfl]
          split
          · rename_i heq
            cases heq
            rw [List.length_cons, List.length_cons]
            rcases ih h.2 h'.2 with hsame | ⟨hlength, hcommon, hfront⟩
            · exact .inl (by rw [hsame])
            · exact .inr ⟨by rw [hlength], by rw [hcommon], by rw [hfront]⟩
          · exact .inl rfl

theorem drop_pathOf (hk : k ≤ r.length) :
    (t.pathOf r owner).drop k = t.pathOf (r.drop k) owner := by
  cases owner with
  | object => rw [pathOf, pathOf, List.map_drop]
  | component c =>
      rw [pathOf, List.drop_append_of_le_length (by simpa using hk), ← List.map_drop]
      rfl

/-- The rest of the path to the target, taken from some object or from none. -/
theorem foldlM_rest (hnames : t.DistinctNames) (h' : t.IsWay (t.objectOf target) r')
    (hk : k < r'.length) {p : Option ι} :
    ((t.pathOf r' target).drop k).foldlM (t.follow (.ofEntity owner)) (p.map .object) =
        .ok (some target) ↔
      (1 ≤ k ∧ p.or (t.objectOf owner) = atDepth r' k) ∧
        ∀ c, target = .component c → t.ordinal c < 2 ^ 16 := by
  have hsplit := h'.descends
  rw [← List.take_append_drop k r', descends_append] at hsplit
  have hlast : (r'.drop k).getLast? = t.objectOf target := by
    rw [List.getLast?_drop, if_neg (by omega), h'.getLast?]
  have hnamed : ∀ i ∈ r'.drop k, t.LastNamed i := fun i _ =>
    ListSearch.isLast_of_nodup (hnames _) (mem_siblings.mpr rfl)
  rw [drop_pathOf (Nat.le_of_lt hk), foldlM_pathOf hsplit.2 hlast (by simpa using hk),
    here_ofEntity, Option.or_none, ← atDepth]
  have hsome := atDepth_eq_some_iff (r := r') (Nat.le_of_lt hk)
  rw [← hsome, and_iff_right hnamed]
  refine and_congr_left fun _ => ?_
  cases atDepth r' k with
  | none => cases p.or (t.objectOf owner) <;> simp
  | some i => cases p.or (t.objectOf owner) <;> simp

/-! ## The way from the owner -/

/-- `GetEntity` of the owner finds the target on the path that `CalculateRelativePath` gives with
enough fuel. -/
def RelativelyResolves [Inhabited ν] (t : SceneTree ι κ ν) (owner target : Entity ι κ) : Prop :=
  ∃ n, ∀ fuel ≥ n, (t.calculateRelativePath fuel (.ofEntity owner) (.ofEntity target)).bind
    (t.getEntity (.ofEntity owner)) = some (some target)

/-- The ways to owner and target meet above the object that the first step to the parent comes from;
or the target is below the owner's object; or it is a component of the scene and the owner is not.
The sizes of the paths fit into `int32_t`, and the number of components of the same name before the
target into `uint16_t`. -/
def Leads (t : SceneTree ι κ ν) (owner target : Entity ι κ) (r r' : List ι) : Prop :=
  let common := commonPrefix r r'
  let size := (t.pathOf r owner).length
  (t.pathOf r' target).length < 2 ^ 31 ∧ (∀ c, target = .component c → t.ordinal c < 2 ^ 16) ∧
    (1 ≤ common ∧ common + 2 ≤ size ∧ size < 2 ^ 31 + 2 ∨
      0 < r.length ∧ common = r.length ∧ common < r'.length ∨
      0 < r.length ∧ r' = [] ∧ (size < 2 ^ 31 + 2 ∨ 2 ^ 31 ≤ (size - 2) % 2 ^ 32))

/-- The same along the ways to owner and target. -/
def Reaches (t : SceneTree ι κ ν) (owner target : Entity ι κ) : Prop :=
  ∃ r r', t.IsWay (t.objectOf owner) r ∧ t.IsWay (t.objectOf target) r' ∧
    t.Leads owner target r r'

theorem parentSteps_le (h : t.IsWay (t.objectOf owner) r) :
    parentSteps (t.pathOf r owner) k + skipped owner ≤ r.length := by
  have hskipped := skipped_le_length h
  have hle := skipped_le owner
  have hlength := length_pathOf t r owner
  rcases Nat.lt_or_ge (t.pathOf r owner).length (2 ^ 31 + 2) with hlt | hge
  · rw [parentSteps_of_lt hlt]
    omega
  · have hcount := (parentSteps_of_ge (k := k) hge).1
    omega


theorem calculateRelativePath_eq [Inhabited ν] (h : t.IsWay (t.objectOf owner) r)
    (h' : t.IsWay (t.objectOf target) r') {fuel : ℕ} (hfuel : r.length + 1 < fuel)
    (hfuel' : r'.length + 1 < fuel) :
    t.calculateRelativePath fuel (.ofEntity owner) (.ofEntity target) =
      if (t.pathOf r' target).length ≥ 2 ^ 31 then none
      else
        let offset := offset (t.pathOf r owner) (t.pathOf r' target)
        some (List.replicate (parentSteps (t.pathOf r owner) offset) parentItem ++
          (t.pathOf r' target).drop offset) := by
  rw [calculateRelativePath, calculatePath_eq h hfuel, calculatePath_eq h' hfuel']
  rfl

/-- After the steps to the parents the rest of the path leads to the target exactly in the cases
that are named. -/
theorem follow_relative_iff [Inhabited ν] (hnames : t.DistinctNames)
    (h : t.IsWay (t.objectOf owner) r) (h' : t.IsWay (t.objectOf target) r')
    (hsize : (t.pathOf r' target).length < 2 ^ 31) :
    (List.replicate (parentSteps (t.pathOf r owner)
        (offset (t.pathOf r owner) (t.pathOf r' target))) parentItem ++
      (t.pathOf r' target).drop (offset (t.pathOf r owner) (t.pathOf r' target))).foldlM
        (t.follow (.ofEntity owner)) none = .ok (some target) ↔ t.Leads owner target r r' := by
  have hbelow := parentSteps_le (k := offset (t.pathOf r owner) (t.pathOf r' target)) h
  rw [List.foldlM_append, foldlM_parents h hbelow]
  change ((t.pathOf r' target).drop _).foldlM (t.follow (.ofEntity owner)) _ = _ ↔ _
  rw [offset_eq hsize] at hbelow ⊢
  have hleft := commonPrefix_le_left r r'
  have hright := commonPrefix_le_right r r'
  have hdepth : atDepth r' (commonPrefix r r') = atDepth r (commonPrefix r r') := by
    rw [atDepth, atDepth, take_commonPrefix]
  have hlength := length_pathOf t r owner
  have hlength' := length_pathOf t r' target
  have hskipped := skipped_le owner
  have hskipped' := skipped_le target
  have hcases := commonPrefix_pathOf owner target hnames h.descends h'.descends
  rw [Leads]
  generalize commonPrefix r r' = k at *
  rcases hcases with hoffset | ⟨heq, hcommon, hoffset⟩
  · rw [hoffset] at hbelow ⊢
    rcases Nat.lt_or_ge k r'.length with hlt | hge
    · have hr' : r' ≠ [] := List.ne_nil_of_length_pos (by omega)
      rw [foldlM_rest hnames h' hlt, hdepth, climbed_or_iff h hbelow hleft]
      have hcount : (1 ≤ k ∧ if parentSteps (t.pathOf r owner) k = 0 ∨
          parentSteps (t.pathOf r owner) k + skipped owner = r.length then k = r.length
          else k + (parentSteps (t.pathOf r owner) k + skipped owner) = r.length) ↔
          (1 ≤ k ∧ k + 2 ≤ (t.pathOf r owner).length ∧
              (t.pathOf r owner).length < 2 ^ 31 + 2 ∨
            0 < r.length ∧ k = r.length ∧ k < r'.length) := by
        rcases Nat.lt_or_ge (t.pathOf r owner).length (2 ^ 31 + 2) with hfits | hlarge
        · rw [parentSteps_of_lt hfits]
          split <;> omega
        · have hsteps := (parentSteps_of_ge (k := k) hlarge).1
          split <;> omega
      rw [hcount]
      constructor
      · rintro ⟨hup | hdown, hordinal⟩
        · exact ⟨hsize, hordinal, .inl hup⟩
        · exact ⟨hsize, hordinal, .inr (.inl hdown)⟩
      · rintro ⟨-, hordinal, hup | hdown | hscene⟩
        · exact ⟨.inl hup, hordinal⟩
        · exact ⟨.inr hdown, hordinal⟩
        · exact (hr' hscene.2.1).elim
    · have hk : k = r'.length := Nat.le_antisymm hright hge
      have htop : atDepth r k = t.objectOf target := by
        rw [← hdepth, hk, h'.atDepth_length]
      have hempty : r' = [] ↔ k = 0 := by rw [hk, List.length_eq_zero_iff]
      have hcount : (0 < r.length ∧ if parentSteps (t.pathOf r owner) k = 0 then k = 0
          else k + (parentSteps (t.pathOf r owner) k + skipped owner) = r.length) ↔
          (1 ≤ k ∧ k + 2 ≤ (t.pathOf r owner).length ∧
              (t.pathOf r owner).length < 2 ^ 31 + 2 ∨
            0 < r.length ∧ k = r.length ∧ k < r'.length ∨
            0 < r.length ∧ r' = [] ∧ ((t.pathOf r owner).length < 2 ^ 31 + 2 ∨
              2 ^ 31 ≤ ((t.pathOf r owner).length - 2) % 2 ^ 32)) := by
        rw [hempty]
        rcases Nat.lt_or_ge (t.pathOf r owner).length (2 ^ 31 + 2) with hfits | hlarge
        · rw [parentSteps_of_lt hfits]
          split <;> omega
        · obtain ⟨hsteps, hzero⟩ := parentSteps_of_ge (k := k) hlarge
          rcases Nat.eq_zero_or_pos k with rfl | hpos
          · split <;> omega
          · split <;> omega
      rw [← hcount, ← climbed_eq_iff h hbelow hleft, htop]
      cases target with
      | object j =>
          have hnil : (t.pathOf r' (.object j)).drop k = [] :=
            List.drop_of_length_le (by simp only [skipped] at hlength'; omega)
          have hpos : 0 < r.length := by
            have hsome := (atDepth_eq_some_iff hleft).mp (by rw [htop]; rfl)
            omega
          rw [hnil]
          constructor
          · intro hfound
            refine ⟨hsize, fun c hc => (by cases hc), hpos, ?_⟩
            exact Option.map_injective (fun _ _ => Entity.object.inj) (Except.ok.inj hfound)
          · rintro ⟨-, -, -, hclimbed⟩
            rw [hclimbed]
            rfl
      | component c =>
          rw [drop_pathOf hright, List.drop_of_length_le hge, foldlM_pathOf_nil, holder_ofEntity,
            if_congr (climbed_or_objectOf h) rfl rfl]
          constructor
          · rintro ⟨hheld, hordinal⟩
            split at hheld
            · rename_i hpos
              refine ⟨hsize, fun d hd => ?_, hpos, Option.some.inj hheld⟩
              cases hd
              exact hordinal
            · cases hheld
          · rintro ⟨-, hordinal, hpos, hclimbed⟩
            rw [if_pos hpos, hclimbed]
            exact ⟨rfl, hordinal c rfl⟩
  · -- nothing is left of the path, and nothing has been gone up
    have hnil : (t.pathOf r' target).drop (r.length + 1) = [] := List.drop_of_length_le (by omega)
    have hwhole := commonPrefix_le_left (t.pathOf r owner) (t.pathOf r' target)
    have hwhole' := commonPrefix_le_right (t.pathOf r owner) (t.pathOf r' target)
    rw [hoffset] at hwhole hwhole' ⊢
    have hsteps : parentSteps (t.pathOf r owner) (r.length + 1) = 0 := by
      rw [parentSteps_of_lt (by omega)]
      omega
    rw [hnil, hsteps]
    refine iff_of_false (fun hfound => by cases hfound) ?_
    rintro ⟨-, -, hup | hdown | hscene⟩
    · omega
    · omega
    · have hempty := congrArg List.length hscene.2.1
      rw [List.length_nil] at hempty
      omega

/-- In a scene whose siblings have different names, the relative path leads from the owner to the
target exactly in the cases that are named. -/
theorem relativelyResolves_iff [Inhabited ν] (hnames : t.DistinctNames) :
    t.RelativelyResolves owner target ↔ t.Reaches owner target := by
  obtain ⟨r, h⟩ := t.exists_isWay (t.objectOf owner)
  obtain ⟨r', h'⟩ := t.exists_isWay (t.objectOf target)
  have hreaches : t.Reaches owner target ↔ t.Leads owner target r r' := by
    constructor
    · rintro ⟨s, s', hs, hs', hleads⟩
      rwa [hs.unique h, hs'.unique h'] at hleads
    · exact fun hleads => ⟨r, r', h, h', hleads⟩
  rw [hreaches]
  constructor
  · rintro ⟨n, hn⟩
    have hresult := hn (n + r.length + r'.length + 2) (by omega)
    rw [calculateRelativePath_eq h h' (by omega) (by omega)] at hresult
    split at hresult
    · cases hresult
    · rename_i hsize
      exact (follow_relative_iff hnames h h' (Nat.lt_of_not_le hsize)).mp
        (getEntity_eq_some_iff.mp hresult)
  · intro hleads
    refine ⟨r.length + r'.length + 2, fun fuel hfuel => ?_⟩
    rw [calculateRelativePath_eq h h' (by omega) (by omega), if_neg (Nat.not_le_of_lt hleads.1)]
    exact getEntity_eq_some_iff.mpr ((follow_relative_iff hnames h h' hleads.1).mpr hleads)

end

inductive Member where
  | parent
  | first
  | second
  deriving DecidableEq

/-- A root with two children of different names, the first of which has a component. -/
def family : SceneTree Member Unit ℕ where
  roots := [.parent]
  children i := if i = .parent then [.first, .second] else []
  parent i := if i = .parent then none else some .parent
  name i := if i = .parent then 7 else if i = .first then 8 else 9
  components o := if o = some .first then [()] else []
  owner _ := some .first
  componentName _ := 5
  forest := {
    mem_children := fun i j => by cases i <;> cases j <;> decide
    nodup := fun i => by cases i <;> decide
    rooted := fun i => by
      have hroot : ParentForest.Rooted
          (fun i : Member => if i = .parent then none else some .parent) .parent := .top rfl
      cases i with
      | parent => exact hroot
      | first => exact hroot.step rfl
      | second => exact hroot.step rfl }
  mem_roots i := by cases i <;> decide
  nodup_roots := by decide
  mem_components _ o := by
    by_cases ho : o = some .first
    · simp [ho]
    · simp [ho, Ne.symm ho]
  nodup_components o := by split <;> decide

theorem distinctNames_family : family.DistinctNames := by
  intro o
  cases o with
  | none => decide
  | some i => cases i <;> decide

/-- From the component of one child to the other child. -/
theorem relativelyResolves_iff_family :
    family.DistinctNames ∧ family.RelativelyResolves (.component ()) (.object .second) := by
  refine ⟨distinctNames_family, (relativelyResolves_iff distinctNames_family).mpr
    ⟨[.parent, .first], [.parent, .second], .step rfl (.top rfl), .step rfl (.top rfl), by decide,
      ?_, .inl (by decide)⟩⟩
  intro c hc
  cases hc

/-- From one child to the other the path has no step to the parent, and the name of the other is
looked for below the first. -/
theorem not_relativelyResolves_of_sibling :
    family.DistinctNames ∧
    (∀ fuel, family.calculateRelativePath (fuel + 4) (.ofEntity (.object .first))
      (.ofEntity (.object .second)) = some [⟨9, 0, .child⟩]) ∧
    family.getEntity (.ofEntity (.object .first)) [⟨9, 0, .child⟩] = some none ∧
    ¬ family.RelativelyResolves (.object .first) (.object .second) := by
  refine ⟨distinctNames_family, fun _ => rfl, rfl, ?_⟩
  rintro ⟨n, hn⟩
  have hnull : (family.calculateRelativePath (n + 4) (.ofEntity (.object .first))
      (.ofEntity (.object .second))).bind
        (family.getEntity (.ofEntity (.object .first))) = some none := rfl
  rw [hn (n + 4) (Nat.le_add_right n 4)] at hnull
  cases hnull

end SceneTree

end SRCommon
