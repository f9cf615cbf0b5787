import Mathlib.Data.List.Basic
import Mathlib.Tactic.Common

/-!
# Lists that begin with a mark

A block is a marked element with unmarked ones behind it. A list is made of
blocks in one way only, and pieces that begin with marks are blocks when there
are not fewer of them than marks.
-/

namespace MarkedBlocks

variable {α : Type*} {marked : α → Bool}

def IsBlock (marked : α → Bool) (xs : List α) : Prop :=
  ∃ a rest, xs = a :: rest ∧ marked a = true ∧ ∀ x ∈ rest, marked x = false

/-- A piece that begins with a mark. -/
def Begins (marked : α → Bool) (xs : List α) : Prop := ∃ a rest, xs = a :: rest ∧ marked a = true

theorem IsBlock.begins {xs : List α} (h : IsBlock marked xs) : Begins marked xs := by
  obtain ⟨a, rest, hxs, ha, -⟩ := h
  exact ⟨a, rest, hxs, ha⟩

theorem IsBlock.countP {xs : List α} (h : IsBlock marked xs) : xs.countP marked = 1 := by
  obtain ⟨a, rest, rfl, ha, hrest⟩ := h
  rw [List.countP_cons_of_pos ha, List.countP_eq_zero.mpr fun x hx => by simp [hrest x hx]]

theorem takeWhile_flatten {bs : List (List α)} (hbs : ∀ b ∈ bs, Begins marked b) :
    bs.flatten.takeWhile (fun x => !marked x) = [] := by
  cases bs with
  | nil => rfl
  | cons b bs =>
      obtain ⟨a, rest, rfl, ha⟩ := hbs b (List.mem_cons_self ..)
      rw [List.flatten_cons, List.cons_append, List.takeWhile_cons_of_neg (by simp [ha])]

theorem eq_of_flatten_eq {bs cs : List (List α)} (hbs : ∀ b ∈ bs, IsBlock marked b)
    (hcs : ∀ c ∈ cs, IsBlock marked c) (h : bs.flatten = cs.flatten) : bs = cs := by
  induction bs generalizing cs with
  | nil =>
      cases cs with
      | nil => rfl
      | cons c cs =>
          obtain ⟨a, rest, rfl, -⟩ := hcs c (List.mem_cons_self ..)
          cases h
  | cons b bs ih =>
      rw [List.forall_mem_cons] at hbs
      obtain ⟨⟨a, rest, rfl, -, hrest⟩, hbs⟩ := hbs
      cases cs with
      | nil => cases h
      | cons c cs =>
          rw [List.forall_mem_cons] at hcs
          obtain ⟨⟨a', rest', rfl, -, hrest'⟩, hcs⟩ := hcs
          simp only [List.flatten_cons, List.cons_append, List.cons.injEq] at h
          obtain ⟨rfl, h⟩ := h
          have htake := congrArg (List.takeWhile fun x => !marked x) h
          rw [List.takeWhile_append_of_pos (by simpa using hrest),
            List.takeWhile_append_of_pos (by simpa using hrest'),
            takeWhile_flatten fun b hb => (hbs b hb).begins,
            takeWhile_flatten fun c hc => (hcs c hc).begins, List.append_nil, List.append_nil]
            at htake
          subst htake
          rw [ih hbs hcs (List.append_cancel_left h)]

theorem length_le_countP {cs : List (List α)} (hcs : ∀ c ∈ cs, Begins marked c) :
    cs.length ≤ cs.flatten.countP marked := by
  induction cs with
  | nil => exact Nat.zero_le _
  | cons c cs ih =>
      rw [List.forall_mem_cons] at hcs
      obtain ⟨⟨a, rest, rfl, ha⟩, hcs⟩ := hcs
      have hle := ih hcs
      rw [List.flatten_cons, List.countP_append, List.countP_cons_of_pos ha, List.length_cons]
      omega

theorem isBlock_of_begins {cs : List (List α)} (hcs : ∀ c ∈ cs, Begins marked c)
    (hcount : cs.flatten.countP marked ≤ cs.length) : ∀ c ∈ cs, IsBlock marked c := by
  induction cs with
  | nil => exact fun c hc => absurd hc List.not_mem_nil
  | cons c cs ih =>
      rw [List.forall_mem_cons] at hcs ⊢
      obtain ⟨⟨a, rest, rfl, ha⟩, hcs⟩ := hcs
      have hle := length_le_countP hcs
      rw [List.flatten_cons, List.countP_append, List.countP_cons_of_pos ha, List.length_cons]
        at hcount
      have hrest : rest.countP marked = 0 := by omega
      refine ⟨⟨a, rest, rfl, ha, fun x hx => ?_⟩, ih hcs (by omega)⟩
      exact Bool.eq_false_iff.mpr (List.countP_eq_zero.mp hrest x hx)

/-- Pieces of a list of blocks that begin with marks are the blocks if they are as many. -/
theorem eq_of_begins {bs cs : List (List α)} (hbs : ∀ b ∈ bs, IsBlock marked b)
    (hcs : ∀ c ∈ cs, Begins marked c) (hlength : cs.length = bs.length)
    (h : cs.flatten = bs.flatten) : cs = bs := by
  have hcount : bs.flatten.countP marked = bs.length := by
    clear hlength h
    induction bs with
    | nil => rfl
    | cons b bs ih =>
        rw [List.forall_mem_cons] at hbs
        rw [List.flatten_cons, List.countP_append, hbs.1.countP, ih hbs.2, List.length_cons]
        omega
  have hcs_count : cs.flatten.countP marked = cs.length := by rw [h, hcount, hlength]
  exact eq_of_flatten_eq (isBlock_of_begins hcs (Nat.le_of_eq hcs_count)) hbs h

end MarkedBlocks
