import Mathlib.Data.List.Basic
import Mathlib.Tactic.Common

/-!
# Rose trees addressed by stacks of child indices

A stack of indices leads from the root to a node, its head being the last
step. Editing the node under a stack, pushing children there and popping
back to an ancestor obey the laws collected here.
-/

/-- A labelled node with any number of ordered children. -/
inductive Rose (α : Type*) where
  | node (label : α) (children : List (Rose α))

namespace Rose

variable {α : Type*}

def label : Rose α → α
  | node a _ => a

def children : Rose α → List (Rose α)
  | node _ cs => cs

@[simp] theorem label_node (a : α) (cs : List (Rose α)) : (node a cs).label = a := rfl

@[simp] theorem children_node (a : α) (cs : List (Rose α)) : (node a cs).children = cs := rfl

@[simp] theorem node_label_children (t : Rose α) : node t.label t.children = t := by
  cases t
  rfl

/-! ## Induction and size -/

mutual

def count : Rose α → ℕ
  | node _ cs => countAll cs + 1

def countAll : List (Rose α) → ℕ
  | [] => 0
  | c :: cs => count c + countAll cs

end

@[simp] theorem countAll_nil : countAll ([] : List (Rose α)) = 0 := by simp [countAll]

@[simp] theorem countAll_cons (c : Rose α) (cs : List (Rose α)) :
    countAll (c :: cs) = c.count + countAll cs := by simp [countAll]

theorem count_eq (t : Rose α) : t.count = countAll t.children + 1 := by
  cases t
  simp [count]

theorem count_pos (t : Rose α) : 0 < t.count := by
  rw [count_eq]
  omega

@[simp] theorem countAll_append (cs ds : List (Rose α)) :
    countAll (cs ++ ds) = countAll cs + countAll ds := by
  induction cs with
  | nil => simp
  | cons c cs ih => simp [ih, Nat.add_assoc]

theorem count_le_countAll {c : Rose α} {cs : List (Rose α)} (hc : c ∈ cs) :
    c.count ≤ countAll cs := by
  induction cs with
  | nil => simp at hc
  | cons d cs ih =>
      rcases List.mem_cons.mp hc with rfl | hc
      · simp
      · have hle := ih hc
        simp only [countAll_cons]
        omega

theorem length_le_countAll (cs : List (Rose α)) : cs.length ≤ countAll cs := by
  induction cs with
  | nil => simp
  | cons c cs ih =>
      have hc := c.count_pos
      simp only [List.length_cons, countAll_cons]
      omega

theorem length_children_lt_count (t : Rose α) : t.children.length < t.count := by
  have hle := length_le_countAll t.children
  rw [count_eq]
  omega

/-- A property that passes from all children to their parent holds of every tree. -/
theorem induct {P : Rose α → Prop} (h : ∀ a cs, (∀ c ∈ cs, P c) → P (node a cs))
    (t : Rose α) : P t := by
  induction hn : t.count using Nat.strongRecOn generalizing t with
  | _ n ih =>
      obtain ⟨a, cs⟩ := t
      apply h
      intro c hc
      have hlt : c.count < n := by
        have hle := count_le_countAll hc
        have heq := count_eq (node a cs)
        rw [children_node] at heq
        omega
      exact ih c.count hlt c rfl

/-! ## The node under a stack -/

def at? (t : Rose α) : List ℕ → Option (Rose α)
  | [] => some t
  | i :: st => (t.at? st).bind fun n => n.children[i]?

@[simp] theorem at?_nil (t : Rose α) : t.at? [] = some t := rfl

theorem at?_cons (t : Rose α) (i : ℕ) (st : List ℕ) :
    t.at? (i :: st) = (t.at? st).bind fun n => n.children[i]? := rfl

theorem at?_cons_of_some {t n : Rose α} {st : List ℕ} (h : t.at? st = some n) (i : ℕ) :
    t.at? (i :: st) = n.children[i]? := by simp [at?_cons, h]

/-- The first step of a stack is its last entry. -/
theorem at?_append_singleton (t : Rose α) (st : List ℕ) (i : ℕ) :
    t.at? (st ++ [i]) = t.children[i]?.bind fun n => n.at? st := by
  induction st with
  | nil =>
      change t.children[i]? = _
      cases t.children[i]? <;> rfl
  | cons j st ih =>
      rw [List.cons_append, at?_cons, ih, Option.bind_assoc]
      rfl

/-- Popping a stack that leads to a node gives one that leads to an ancestor. -/
theorem isSome_at?_of_suffix {t : Rose α} {st st' : List ℕ} (h : st <:+ st')
    (ht : (t.at? st').isSome) : (t.at? st).isSome := by
  obtain ⟨pre, rfl⟩ := h
  induction pre with
  | nil => exact ht
  | cons i pre ih =>
      apply ih
      rw [List.cons_append, at?_cons] at ht
      cases hn : t.at? (pre ++ st) with
      | none => simp [hn] at ht
      | some n => rfl

theorem at?_mem_children {t n c : Rose α} {st : List ℕ} {i : ℕ} (h : t.at? st = some n)
    (hc : t.at? (i :: st) = some c) : c ∈ n.children := by
  rw [at?_cons_of_some h] at hc
  exact List.mem_of_getElem? hc

theorem count_at?_le {t n : Rose α} {st : List ℕ} (h : t.at? st = some n) :
    n.count ≤ t.count := by
  induction st generalizing n with
  | nil =>
      cases h
      exact Nat.le_refl _
  | cons i st ih =>
      cases hm : t.at? st with
      | none => simp [at?_cons, hm] at h
      | some m =>
          have hle := count_le_countAll (at?_mem_children hm h)
          have hm' := ih hm
          rw [count_eq m] at hm'
          omega

/-! ## Other labels -/

section

variable {β : Type*} (f : α → β)

mutual

def map : Rose α → Rose β
  | node a cs => node (f a) (mapAll cs)

def mapAll : List (Rose α) → List (Rose β)
  | [] => []
  | c :: cs => map c :: mapAll cs

end

theorem mapAll_eq (cs : List (Rose α)) : mapAll f cs = cs.map (map f) := by
  induction cs with
  | nil => rw [mapAll, List.map_nil]
  | cons c cs ih => rw [mapAll, ih, List.map_cons]

theorem children_map (t : Rose α) : (t.map f).children = t.children.map (map f) := by
  cases t
  rw [map, children_node, children_node, mapAll_eq]

theorem at?_map (t : Rose α) (st : List ℕ) : (t.map f).at? st = (t.at? st).map (map f) := by
  induction st with
  | nil => rfl
  | cons i st ih =>
      rw [at?_cons, ih, at?_cons]
      cases t.at? st with
      | none => rfl
      | some n => exact (congrArg (·[i]?) (children_map f n)).trans List.getElem?_map

theorem count_map (t : Rose α) : (t.map f).count = t.count := by
  induction t using induct with
  | h a cs ih =>
      have hall (ds : List (Rose α)) (hds : ∀ d ∈ ds, d ∈ cs) :
          countAll (mapAll f ds) = countAll ds := by
        induction ds with
        | nil => rw [mapAll, countAll_nil, countAll_nil]
        | cons d ds ihds =>
            obtain ⟨hd, hds⟩ := List.forall_mem_cons.mp hds
            rw [mapAll, countAll_cons, countAll_cons, ih d hd, ihds hds]
      rw [map, count, count, hall cs fun _ hd => hd]

end

/-! ## Editing the node under a stack -/

/-- Apply `f` to the node under the stack; nothing changes if there is none. -/
def modifyAt : List ℕ → (Rose α → Rose α) → Rose α → Rose α
  | [], f, t => f t
  | i :: st, f, t => modifyAt st (fun n => node n.label (n.children.modify i f)) t

@[simp] theorem modifyAt_nil (f : Rose α → Rose α) (t : Rose α) : modifyAt [] f t = f t := rfl

theorem modifyAt_cons (i : ℕ) (st : List ℕ) (f : Rose α → Rose α) (t : Rose α) :
    modifyAt (i :: st) f t =
      modifyAt st (fun n => node n.label (n.children.modify i f)) t := rfl

theorem at?_modifyAt (st : List ℕ) (f : Rose α → Rose α) (t : Rose α) :
    (modifyAt st f t).at? st = (t.at? st).map f := by
  induction st generalizing f with
  | nil => rfl
  | cons i st ih =>
      rw [modifyAt_cons, at?_cons, ih, at?_cons]
      cases t.at? st with
      | none => rfl
      | some n => simp

theorem modifyAt_modifyAt (st : List ℕ) (f g : Rose α → Rose α) (t : Rose α) :
    modifyAt st g (modifyAt st f t) = modifyAt st (fun n => g (f n)) t := by
  induction st generalizing f g with
  | nil => rfl
  | cons i st ih => simp [modifyAt_cons, ih, List.modify_modify_eq, Function.comp_def]

/-- Only the action on the node under the stack matters. -/
theorem modifyAt_congr {t n : Rose α} {st : List ℕ} {f g : Rose α → Rose α}
    (h : t.at? st = some n) (hfg : f n = g n) : modifyAt st f t = modifyAt st g t := by
  induction st generalizing n f g with
  | nil =>
      cases h
      exact hfg
  | cons i st ih =>
      cases hm : t.at? st with
      | none => simp [at?_cons, hm] at h
      | some m =>
          rw [at?_cons_of_some hm] at h
          apply ih hm
          obtain ⟨hi, hget⟩ := List.getElem?_eq_some_iff.mp h
          congr 1
          apply List.ext_getElem? fun j => ?_
          rcases eq_or_ne i j with rfl | hij
          · simp [h, hfg]
          · simp [hij]

theorem modifyAt_id {t n : Rose α} {st : List ℕ} {f : Rose α → Rose α}
    (h : t.at? st = some n) (hf : f n = n) : modifyAt st f t = t := by
  have hid : ∀ s : List ℕ, modifyAt s (fun m : Rose α => m) t = t := by
    intro s
    induction s with
    | nil => rfl
    | cons i s ih =>
        rw [modifyAt_cons]
        have hmod : ∀ cs : List (Rose α), cs.modify i (fun m => m) = cs := List.modify_id i
        simpa [hmod] using ih
  rw [modifyAt_congr h (g := fun m => m) hf, hid]

/-! ## Appending children -/

/-- Any number of `emplace_back` on the children of a node. -/
def append (ds : List (Rose α)) (n : Rose α) : Rose α := node n.label (n.children ++ ds)

def relabel (f : α → α) (n : Rose α) : Rose α := node (f n.label) n.children

@[simp] theorem label_append (ds : List (Rose α)) (n : Rose α) :
    (n.append ds).label = n.label := rfl

@[simp] theorem children_append (ds : List (Rose α)) (n : Rose α) :
    (n.append ds).children = n.children ++ ds := rfl

@[simp] theorem append_nil (n : Rose α) : n.append [] = n := by simp [append]

@[simp] theorem append_append (ds es : List (Rose α)) (n : Rose α) :
    (n.append ds).append es = n.append (ds ++ es) := by simp [append]

@[simp] theorem label_relabel (f : α → α) (n : Rose α) : (n.relabel f).label = f n.label := rfl

@[simp] theorem children_relabel (f : α → α) (n : Rose α) :
    (n.relabel f).children = n.children := rfl

/-- The child appended last is reached by the index of the old number of children. -/
theorem at?_append_child {t n : Rose α} {st : List ℕ} (h : t.at? st = some n) (c : Rose α) :
    (modifyAt st (append [c]) t).at? (n.children.length :: st) = some c := by
  rw [at?_cons, at?_modifyAt, h]
  simp

/-- Editing the child just appended is appending the edited child. -/
theorem modifyAt_append_child {t n : Rose α} {st : List ℕ} (h : t.at? st = some n)
    (c : Rose α) (f : Rose α → Rose α) :
    modifyAt (n.children.length :: st) f (modifyAt st (append [c]) t) =
      modifyAt st (append [f c]) t := by
  rw [modifyAt_cons, modifyAt_modifyAt]
  apply modifyAt_congr h
  have hmod : (n.children ++ [c]).modify n.children.length f = n.children ++ [f c] := by
    rw [List.modify_eq_take_cons_drop (by simp)]
    simp
  simp [append, hmod]

theorem modifyAt_append_append (st : List ℕ) (ds es : List (Rose α)) (t : Rose α) :
    modifyAt st (append es) (modifyAt st (append ds) t) = modifyAt st (append (ds ++ es)) t := by
  simp [modifyAt_modifyAt]

/-- Editing the node under a stack adds at most as many nodes as the edit does. -/
theorem count_modifyAt_le {f : Rose α → Rose α} {k : ℕ} (h : ∀ n, (f n).count ≤ n.count + k)
    (st : List ℕ) (t : Rose α) : (modifyAt st f t).count ≤ t.count + k := by
  induction st generalizing f with
  | nil => exact h t
  | cons i st ih =>
      apply ih
      intro n
      have hmod : ∀ (cs : List (Rose α)) (j : ℕ),
          countAll (cs.modify j f) ≤ countAll cs + k := by
        intro cs
        induction cs with
        | nil => simp
        | cons c cs ihc =>
            intro j
            cases j with
            | zero =>
                have hc := h c
                simp only [List.modify_zero_cons, countAll_cons]
                omega
            | succ j =>
                have hj := ihc j
                simp only [List.modify_succ_cons, countAll_cons]
                omega
      have hle := hmod n.children i
      rw [count_eq n, count_eq, children_node]
      omega

theorem count_append (ds : List (Rose α)) (n : Rose α) :
    (n.append ds).count = n.count + countAll ds := by
  rw [count_eq n, count_eq, children_append, countAll_append]
  omega

@[simp] theorem count_relabel (f : α → α) (n : Rose α) : (n.relabel f).count = n.count := by
  simp [count_eq]

end Rose
