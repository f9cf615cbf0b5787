import Mathlib.Logic.Function.Basic
import SRCommon.Types.Marshal

/-!
# Migration

Migrators of saved data, registered under the hash of a name and run over a
working copy in the order of their registration.
-/

namespace SRCommon

namespace Marshal

/-- The bytes of a full copy are those of the original. -/
theorem contents_fullCopy {s : Marshal} (h : s.size ≤ s.capacity) :
    s.fullCopy.contents = s.contents :=
  s.take_cells_copy (UInt64.le_iff_toNat_le.mp h)

end Marshal

/-- A migrator changes the marshal it is given and says whether it has succeeded. -/
abbrev Migrator := Marshal → Marshal × Bool

structure MigrationInfo where
  fromVersion : UInt16
  toVersion : UInt16
  migrator : Migrator

/-- `m_migrators`. -/
abbrev Migration := UInt64 → Option (List MigrationInfo)

namespace Migration

/-- The loop of `Migrate`, over the working copy and the version. -/
def runMigrators : List MigrationInfo → Marshal → UInt16 → Marshal × UInt16
  | [], migrated, version => (migrated, version)
  | info :: rest, migrated, version =>
      if info.fromVersion = version then
        let result := info.migrator migrated
        if result.2 then runMigrators rest result.1 info.toVersion else (result.1, version)
      else runMigrators rest migrated version

/-- What `Migrate` returns and the marshal that it leaves. -/
def migrate (m : Migration) (hashName : UInt64) (marshal : Marshal)
    (fromVersion toVersion : UInt16) : Bool × Marshal :=
  if fromVersion = toVersion then (false, marshal)
  else match m hashName with
    | none => (false, marshal)
    | some migrators =>
        let migrated := (runMigrators migrators marshal.fullCopy fromVersion).1
        if migrators.getLast?.map MigrationInfo.toVersion = some toVersion then
          (true, migrated.fullCopy)
        else (false, marshal)

def registerMigrator (m : Migration) (hashName : UInt64) (info : MigrationInfo) : Migration :=
  Function.update m hashName (some ((m hashName).getD [] ++ [info]))

def registered (m : Migration) (hashName : UInt64) : List MigrationInfo := (m hashName).getD []

/-! ## Chains of migrators -/

/-- The migrators succeed one after the other, and each takes up the version that the one before
has led to. -/
inductive Chain : List MigrationInfo → Marshal → UInt16 → Marshal → UInt16 → Prop
  | nil (marshal : Marshal) (version : UInt16) : Chain [] marshal version marshal version
  | cons {info : MigrationInfo} {rest : List MigrationInfo} {marshal result : Marshal}
      {toVersion : UInt16} : (info.migrator marshal).2 = true →
      Chain rest (info.migrator marshal).1 info.toVersion result toVersion →
      Chain (info :: rest) marshal info.fromVersion result toVersion

/-- The migrators that the loop calls. -/
def called : List MigrationInfo → Marshal → UInt16 → List MigrationInfo
  | [], _, _ => []
  | info :: rest, migrated, version =>
      if info.fromVersion = version then
        let result := info.migrator migrated
        info :: if result.2 then called rest result.1 info.toVersion else []
      else called rest migrated version

theorem called_sublist (migrators : List MigrationInfo) (migrated : Marshal) (version : UInt16) :
    (called migrators migrated version).Sublist migrators := by
  induction migrators generalizing migrated version with
  | nil => exact List.Sublist.refl []
  | cons info rest ih =>
      rw [called]
      split
      · refine List.Sublist.cons_cons info ?_
        split
        · exact ih _ _
        · exact List.nil_sublist rest
      · exact (ih migrated version).cons info

/-- A success means that the migrators which have been called are registered ones, have all
succeeded and lead from one version to the other, and that the marshal holds what they have made of
it. After a failure the marshal is what it was. -/
def AllOrNothing (m : Migration) (hashName : UInt64) (marshal : Marshal)
    (fromVersion toVersion : UInt16) : Prop :=
  let chain := called (m.registered hashName) marshal.fullCopy fromVersion
  let (succeeded, left) := m.migrate hashName marshal fromVersion toVersion
  (succeeded = true → ∃ result, (∀ info ∈ chain, info ∈ m.registered hashName) ∧
    Chain chain marshal.fullCopy fromVersion result toVersion ∧ left = result.fullCopy) ∧
  (succeeded = false → left = marshal)

/-- The migrators whose turn comes all succeed, and the last of them leads to the version asked
for. -/
def Completes : List MigrationInfo → Marshal → UInt16 → UInt16 → Prop
  | [], _, version, toVersion => version = toVersion
  | info :: rest, migrated, version, toVersion =>
      if info.fromVersion = version then
        let result := info.migrator migrated
        result.2 = true ∧ Completes rest result.1 info.toVersion toVersion
      else Completes rest migrated version toVersion

theorem Chain.cons_iff {info : MigrationInfo} {rest : List MigrationInfo}
    {marshal result : Marshal} {toVersion : UInt16} :
    Chain (info :: rest) marshal info.fromVersion result toVersion ↔
      (info.migrator marshal).2 = true ∧
        Chain rest (info.migrator marshal).1 info.toVersion result toVersion := by
  constructor
  · intro h
    cases h with
    | cons hsucceeded hrest => exact ⟨hsucceeded, hrest⟩
  · rintro ⟨hsucceeded, hrest⟩
    exact .cons hsucceeded hrest

theorem Chain.exists_from {chain : List MigrationInfo} {marshal result : Marshal}
    {fromVersion toVersion : UInt16} (h : Chain chain marshal fromVersion result toVersion)
    (hne : fromVersion ≠ toVersion) : ∃ info ∈ chain, info.fromVersion = fromVersion := by
  cases h with
  | nil => exact (hne rfl).elim
  | cons _ _ => exact ⟨_, List.mem_cons_self, rfl⟩

/-- The calls of the loop are a chain exactly when the migrators complete, and the loop then ends
with the result of the chain. -/
theorem chain_called_iff {migrators : List MigrationInfo} {migrated result : Marshal}
    {version toVersion : UInt16} :
    Chain (called migrators migrated version) migrated version result toVersion ↔
      Completes migrators migrated version toVersion ∧
        result = (runMigrators migrators migrated version).1 := by
  induction migrators generalizing migrated version with
  | nil =>
      rw [called, Completes, runMigrators]
      constructor
      · intro h
        cases h with
        | nil => exact ⟨rfl, rfl⟩
      · rintro ⟨rfl, rfl⟩
        exact .nil _ _
  | cons info rest ih =>
      rw [called, Completes, runMigrators]
      split
      · rename_i hversion
        subst hversion
        rw [Chain.cons_iff]
        cases hsucceeded : (info.migrator migrated).2 with
        | true => simpa [hsucceeded] using ih
        | false => simp [hsucceeded]
      · exact ih

section

variable {m : Migration} {hashName : UInt64} {marshal : Marshal} {fromVersion toVersion : UInt16}

/-- Success depends on the migrator that was registered last. -/
theorem migrate_eq (hne : fromVersion ≠ toVersion) :
    m.migrate hashName marshal fromVersion toVersion =
      if (m.registered hashName).getLast?.map MigrationInfo.toVersion = some toVersion then
        (true, (runMigrators (m.registered hashName) marshal.fullCopy fromVersion).1.fullCopy)
      else (false, marshal) := by
  rw [migrate, if_neg hne, registered]
  cases m hashName with
  | none => rfl
  | some migrators => rfl

theorem migrate_failed (h : (m.migrate hashName marshal fromVersion toVersion).1 = false) :
    (m.migrate hashName marshal fromVersion toVersion).2 = marshal := by
  rcases eq_or_ne fromVersion toVersion with heq | hne
  · rw [migrate, if_pos heq]
  · rw [migrate_eq hne] at h ⊢
    split at h
    · cases h
    · rename_i hlast
      rw [if_neg hlast]

theorem allOrNothing_iff (hne : fromVersion ≠ toVersion) :
    m.AllOrNothing hashName marshal fromVersion toVersion ↔
      ((m.registered hashName).getLast?.map MigrationInfo.toVersion = some toVersion →
        Completes (m.registered hashName) marshal.fullCopy fromVersion toVersion) := by
  have hregistered : ∀ info ∈ called (m.registered hashName) marshal.fullCopy fromVersion,
      info ∈ m.registered hashName := fun _ hinfo => (called_sublist _ _ _).subset hinfo
  rw [AllOrNothing]
  simp only [chain_called_iff]
  refine (and_iff_left migrate_failed).trans ?_
  rw [migrate_eq hne]
  split
  · rename_i hlast
    constructor
    · intro h _
      obtain ⟨-, -, ⟨hcompletes, -⟩, -⟩ := h rfl
      exact hcompletes
    · intro h _
      exact ⟨_, hregistered, ⟨h hlast, rfl⟩, rfl⟩
  · rename_i hlast
    constructor
    · intro _ h
      exact (hlast h).elim
    · intro _ h
      cases h

end

/-- Two migrators in the order of their versions. -/
theorem allOrNothing_two_steps :
    let keep : Migrator := fun marshal => (marshal, true)
    let m : Migration := registerMigrator (registerMigrator (fun _ => none) 7 ⟨1, 2, keep⟩) 7
      ⟨2, 3, keep⟩
    (1 : UInt16) ≠ 3 ∧ m.AllOrNothing 7 Stream.empty 1 3 := by
  refine ⟨by decide, (allOrNothing_iff (by decide)).mpr fun _ => ?_⟩
  rw [registered, registerMigrator, Function.update_self, registerMigrator, Function.update_self]
  exact ⟨rfl, rfl, rfl⟩

/-- The only migrator starts from another version: nothing is applied, and `Migrate` succeeds. -/
theorem not_allOrNothing_of_skipped :
    let m : Migration := registerMigrator (fun _ => none) 7 ⟨2, 3, fun marshal => (marshal, true)⟩
    (m.migrate 7 Stream.empty 1 3).1 = true ∧
      (∀ chain start result, (∀ info ∈ chain, info ∈ m.registered 7) →
        ¬ Chain chain start 1 result 3) ∧
      ¬ m.AllOrNothing 7 Stream.empty 1 3 := by
  have hchain : ∀ chain start result, (∀ info ∈ chain, info ∈ registered (registerMigrator
      (fun _ => none) 7 ⟨2, 3, fun marshal => (marshal, true)⟩) 7) →
      ¬ Chain chain start 1 result 3 := by
    intro chain start result hregistered h
    obtain ⟨info, hinfo, hversion⟩ := h.exists_from (by decide)
    cases List.mem_singleton.mp (hregistered info hinfo)
    cases hversion
  refine ⟨rfl, hchain, fun h => ?_⟩
  obtain ⟨result, hregistered, happlied, -⟩ := h.1 rfl
  exact hchain _ _ result hregistered happlied

end Migration

end SRCommon
