import Mathlib.Data.List.Basic
import Mathlib.Data.List.Nodup
import Mathlib.Logic.Function.Iterate
import Mathlib.Tactic.Common

/-!
# Searches in lists

Entries that are found by a name and by how many entries of the same name stand
before them, the common prefix of two lists, and first matches that are erased.
-/

namespace ListSearch

section

variable {α ν : Type*} [DecidableEq ν] (name : α → ν)

/-- The entries of a name. -/
def named (v : ν) (xs : List α) : List α := xs.filter fun x => name x = v

/-- The search counts the index down and stops. -/
def nth (v : ν) : List α → ℕ → Option α
  | [], _ => none
  | x :: xs, index =>
      if name x ≠ v then nth v xs index
      else if index > 0 then nth v xs (index - 1) else some x

/-- The search counts the index down and goes on with what it has found. -/
def last (v : ν) : Option α → List α → ℕ → Option α
  | found, [], _ => found
  | found, x :: xs, index =>
      if name x ≠ v then last v found xs index
      else if index > 0 then last v found xs (index - 1) else last v (some x) xs index

/-- The number of entries of the name of `x` before `x`. -/
def ordinal [DecidableEq α] (x : α) : List α → ℕ
  | [] => 0
  | y :: ys => if y = x then 0 else if name y = name x then ordinal x ys + 1 else ordinal x ys

/-- No entry behind `x` has its name. -/
def IsLast (x : α) (xs : List α) : Prop := (named name (name x) xs).getLast? = some x

instance [DecidableEq α] (x : α) (xs : List α) : Decidable (IsLast name x xs) :=
  inferInstanceAs (Decidable (_ = _))

variable {name} {v : ν} {x : α} {xs : List α} {n : ℕ}

theorem mem_named : x ∈ named name v xs ↔ x ∈ xs ∧ name x = v := by
  rw [named, List.mem_filter, decide_eq_true_iff]

theorem named_cons_of_eq (h : name x = v) : named name v (x :: xs) = x :: named name v xs :=
  List.filter_cons_of_pos (by simpa using h)

theorem named_cons_of_ne (h : name x ≠ v) : named name v (x :: xs) = named name v xs :=
  List.filter_cons_of_neg (by simpa using h)

theorem nth_eq : nth name v xs n = (named name v xs)[n]? := by
  induction xs generalizing n with
  | nil => rfl
  | cons x xs ih =>
      rw [nth]
      split
      · rename_i hne
        rw [named_cons_of_ne hne, ih]
      · rename_i heq
        rw [named_cons_of_eq (not_not.mp heq)]
        cases n with
        | zero => rfl
        | succ n => exact ih

theorem last_eq {found : Option α} :
    last name v found xs n = (((named name v xs).drop n).getLast?).or found := by
  induction xs generalizing n found with
  | nil =>
      rw [last, named, List.filter_nil, List.drop_nil]
      rfl
  | cons x xs ih =>
      rw [last]
      split
      · rename_i hne
        rw [named_cons_of_ne hne, ih]
      · rename_i heq
        rw [named_cons_of_eq (not_not.mp heq)]
        cases n with
        | zero =>
            rw [if_neg (Nat.lt_irrefl 0), ih, List.drop_zero, List.drop_zero, List.getLast?_cons]
            cases (named name v xs).getLast? <;> rfl
        | succ n =>
            rw [if_pos n.succ_pos, List.drop_succ_cons]
            exact ih

theorem mem_of_nth (h : nth name v xs n = some x) : x ∈ xs := by
  rw [nth_eq] at h
  exact (mem_named.mp (List.mem_of_getElem? h)).1

theorem mem_of_last (h : last name v none xs n = some x) : x ∈ xs := by
  rw [last_eq, Option.or_none] at h
  exact (mem_named.mp (List.mem_of_mem_drop (List.mem_of_getLast? h))).1

theorem nodup_named (h : xs.Nodup) : (named name v xs).Nodup := h.filter _

theorem isLast_of_nodup (h : (xs.map name).Nodup) (hx : x ∈ xs) : IsLast name x xs := by
  have hall : ∀ y ∈ named name (name x) xs, y = x := fun y hy => by
    obtain ⟨hy, hname⟩ := mem_named.mp hy
    exact List.inj_on_of_nodup_map h hy hx hname
  have hmem : x ∈ named name (name x) xs := mem_named.mpr ⟨hx, rfl⟩
  rw [IsLast, List.getLast?_eq_some_getLast (List.ne_nil_of_mem hmem)]
  exact congrArg some (hall _ (List.getLast_mem _))

/-- Where no two entries have one name each is found by its own. -/
theorem find?_eq_some_of_nodup (h : (xs.map name).Nodup) (hx : x ∈ xs) :
    xs.find? (fun y => name y = name x) = some x := by
  induction xs with
  | nil => cases hx
  | cons y ys ih =>
      rw [List.map_cons, List.nodup_cons] at h
      rcases List.mem_cons.mp hx with rfl | hmem
      · exact List.find?_cons_of_pos (decide_eq_true rfl)
      · have hne : name y ≠ name x := by
          intro heq
          apply h.1
          rw [heq]
          exact List.mem_map_of_mem hmem
        rw [List.find?_cons_of_neg (by simpa using hne)]
        exact ih h.2 hmem

variable [DecidableEq α]

theorem ordinal_eq : ordinal name x xs = (named name (name x) xs).idxOf x := by
  induction xs with
  | nil => rfl
  | cons y ys ih =>
      rw [ordinal]
      split
      · rename_i heq
        subst heq
        rw [named_cons_of_eq rfl, List.idxOf_cons_self]
      · rename_i hne
        split
        · rename_i hname
          rw [named_cons_of_eq hname, List.idxOf_cons_ne _ hne, ih]
        · rename_i hname
          rw [named_cons_of_ne hname, ih]

theorem nth_eq_some_iff (h : xs.Nodup) (hx : x ∈ xs) :
    nth name (name x) xs n = some x ↔ n = ordinal name x xs := by
  have hmem : x ∈ named name (name x) xs := mem_named.mpr ⟨hx, rfl⟩
  rw [nth_eq, ordinal_eq]
  constructor
  · intro hn
    obtain ⟨hlt, hn⟩ := List.getElem?_eq_some_iff.mp hn
    exact ((nodup_named h).idxOf_getElem n hlt).symm.trans (congrArg (List.idxOf · _) hn)
  · rintro rfl
    exact List.getElem?_idxOf hmem

theorem last_eq_some_iff (hx : x ∈ xs) (hn : n ≤ ordinal name x xs) :
    last name (name x) none xs n = some x ↔ IsLast name x xs := by
  have hmem : x ∈ named name (name x) xs := mem_named.mpr ⟨hx, rfl⟩
  have hlt := List.idxOf_lt_length_of_mem hmem
  rw [ordinal_eq] at hn
  rw [last_eq, Option.or_none, List.getLast?_drop, if_neg (by omega), IsLast]

/-- What is found by a name and a number. -/
theorem nth_eq_some (h : xs.Nodup) :
    nth name v xs n = some x ↔ x ∈ xs ∧ name x = v ∧ n = ordinal name x xs := by
  constructor
  · intro hn
    have hfound := hn
    rw [nth_eq] at hfound
    obtain ⟨hx, rfl⟩ := mem_named.mp (List.mem_of_getElem? hfound)
    exact ⟨hx, rfl, (nth_eq_some_iff h hx).mp hn⟩
  · rintro ⟨hx, rfl, hn⟩
    exact (nth_eq_some_iff h hx).mpr hn

theorem last_eq_some (h : xs.Nodup) : last name v none xs n = some x ↔
    x ∈ xs ∧ name x = v ∧ IsLast name x xs ∧ n ≤ ordinal name x xs := by
  constructor
  · intro hlast
    have hfound := hlast
    rw [last_eq, Option.or_none] at hfound
    obtain ⟨hx, rfl⟩ := mem_named.mp (List.mem_of_mem_drop (List.mem_of_getLast? hfound))
    rw [List.getLast?_drop] at hfound
    split at hfound
    · cases hfound
    rename_i hlength
    refine ⟨hx, rfl, hfound, ?_⟩
    rw [List.getLast?_eq_getElem?] at hfound
    obtain ⟨hlt, hget⟩ := List.getElem?_eq_some_iff.mp hfound
    have hplace := (nodup_named h).idxOf_getElem _ hlt
    rw [hget] at hplace
    rw [ordinal_eq, hplace]
    omega
  · rintro ⟨hx, rfl, hislast, hn⟩
    exact (last_eq_some_iff hx hn).mpr hislast

end

section

variable {α : Type*} [DecidableEq α]

/-- The length of the longest common prefix. -/
def commonPrefix : List α → List α → ℕ
  | x :: xs, y :: ys => if x = y then commonPrefix xs ys + 1 else 0
  | _, _ => 0

theorem commonPrefix_cons {x y : α} {xs ys : List α} :
    commonPrefix (x :: xs) (y :: ys) = if x = y then commonPrefix xs ys + 1 else 0 := rfl

theorem commonPrefix_le_left (xs ys : List α) : commonPrefix xs ys ≤ xs.length := by
  induction xs generalizing ys with
  | nil => exact Nat.zero_le _
  | cons x xs ih =>
      cases ys with
      | nil => exact Nat.zero_le _
      | cons y ys =>
          rw [commonPrefix_cons]
          split
          · exact Nat.succ_le_succ (ih ys)
          · exact Nat.zero_le _

theorem commonPrefix_take {xs ys : List α} {n : ℕ} (h : ys.length ≤ n) :
    commonPrefix (xs.take n) ys = commonPrefix xs ys := by
  induction xs generalizing ys n with
  | nil => rw [List.take_nil]
  | cons x xs ih =>
      cases ys with
      | nil => cases n <;> rfl
      | cons y ys =>
          obtain _ | n := n
          · exact absurd h (Nat.not_succ_le_zero _)
          · rw [List.take_succ_cons, commonPrefix_cons, commonPrefix_cons,
              ih (Nat.le_of_succ_le_succ h)]

theorem take_commonPrefix (xs ys : List α) :
    xs.take (commonPrefix xs ys) = ys.take (commonPrefix xs ys) := by
  induction xs generalizing ys with
  | nil => cases ys <;> rfl
  | cons x xs ih =>
      cases ys with
      | nil => rfl
      | cons y ys =>
          rw [commonPrefix_cons]
          split
          · rename_i heq
            rw [List.take_succ_cons, List.take_succ_cons, heq, ih ys]
          · rfl

theorem commonPrefix_le_right (xs ys : List α) : commonPrefix xs ys ≤ ys.length := by
  have hlength := congrArg List.length (take_commonPrefix xs ys)
  have hle := commonPrefix_le_left xs ys
  rw [List.length_take, List.length_take] at hlength
  omega

end

/-! ## Erasing first matches -/

section

variable {α : Type*} {p : α → Bool}

theorem iterate_eraseP_cons_of_neg {a : α} (h : ¬ p a = true) (as : List α) (n : ℕ) :
    (List.eraseP p)^[n] (a :: as) = a :: (List.eraseP p)^[n] as := by
  induction n generalizing as with
  | zero => rfl
  | succ n ih =>
      rw [Function.iterate_succ_apply, Function.iterate_succ_apply, List.eraseP_cons_of_neg h, ih]

/-- The first matches are erased one after the other, and they are the right ones. -/
theorem iterate_eraseP [DecidableEq α] {a : α} (ha : p a = true) {as : List α}
    (h : as.Pairwise fun b c => c = a → p b = true → b = a) :
    (List.eraseP p)^[as.count a] as = as.filter (· ≠ a) := by
  induction as with
  | nil => rfl
  | cons b as ih =>
      obtain ⟨hb, has⟩ := List.pairwise_cons.mp h
      by_cases heq : b = a
      · subst heq
        rw [List.count_cons_self, Function.iterate_succ_apply, List.eraseP_cons_of_pos ha, ih has,
          List.filter_cons_of_neg (by simp)]
      · rw [List.count_cons_of_ne heq, List.filter_cons_of_pos (by simpa using heq)]
        by_cases hp : p b = true
        · have hnone : a ∉ as := fun hmem => heq (hb a hmem rfl hp)
          rw [List.count_eq_zero_of_not_mem hnone, List.filter_eq_self.mpr]
          · rfl
          · intro c hc
            simpa using ne_of_mem_of_not_mem hc hnone
        · rw [iterate_eraseP_cons_of_neg hp, ih has]

end

end ListSearch
