import SRCommon.World.SceneRegistry

/-!
# Searches in a scene

`Find` passes over the slots that are empty. `FindByComponent` calls a method
of what is in a slot without a look at it, so that an empty slot in front of the
first match is called through a null pointer.
-/

namespace SRCommon

/-- What the searches read of an object: the hash of its name, and the names of its components. -/
structure SearchedTexts (ι ν : Type) where
  name : ι → UInt64
  components : ι → List ν

namespace Scene

section

variable {ι ε ν : Type} [DecidableEq ν] (s : Scene ι ε) (texts : SearchedTexts ι ν)

/-- The loop of `FindByComponent`. -/
def findByComponentIn (name : ν) : List (Option ι) → Option (Option ι)
  | [] => some none
  | pObject :: rest =>
      pObject.bind fun object => (s.objects object).bind fun _ =>
        if name ∈ texts.components object then some (some object)
        else findByComponentIn name rest

def findByComponent (name : ν) : Option (Option ι) :=
  s.findByComponentIn texts name s.table.slots

end

section

variable {ι ε ν : Type} (s : Scene ι ε) (texts : SearchedTexts ι ν)

/-- The loop of `Find`. -/
def findIn (hashName : UInt64) : List (Option ι) → Option (Option ι)
  | [] => some none
  | none :: rest => findIn hashName rest
  | some object :: rest =>
      (s.objects object).bind fun _ =>
        if texts.name object = hashName then some (some object) else findIn hashName rest

def find (hashName : UInt64) : Option (Option ι) := s.findIn texts hashName s.table.slots

/-! ## Answers -/

/-- The answer is one of the objects in the slots that satisfy the query, if there is one. -/
structure Finds (slots : List (Option ι)) (query : ι → Prop) (answer : Option ι) : Prop where
  found : ∀ c, answer = some c → some c ∈ slots ∧ query c
  missing : answer = none → ∀ c, some c ∈ slots → ¬ query c

variable {s texts} {slots : List (Option ι)} {query : ι → Prop}

theorem finds_nil : Finds [] query none where
  found _ h := by cases h
  missing _ _ h := absurd h List.not_mem_nil

theorem finds_head {c : ι} (hc : query c) : Finds (some c :: slots) query (some c) where
  found d h := by
    cases h
    exact ⟨List.mem_cons_self, hc⟩
  missing h := by cases h

theorem Finds.cons {answer : Option ι} {pObject : Option ι} (h : Finds slots query answer)
    (hhead : ∀ c, pObject = some c → ¬ query c) : Finds (pObject :: slots) query answer where
  found c hc := ⟨List.mem_cons_of_mem _ (h.found c hc).1, (h.found c hc).2⟩
  missing hnone c hc := by
    rcases List.mem_cons.mp hc with heq | hc
    · exact hhead c heq.symm
    · exact h.missing hnone c hc

/-- `Find` passes over the empty slots. -/
theorem exists_findIn {hashName : UInt64} (h : ∀ c, some c ∈ slots → (s.objects c).isSome) :
    ∃ answer, s.findIn texts hashName slots = some answer ∧
      Finds slots (fun c => texts.name c = hashName) answer := by
  induction slots with
  | nil => exact ⟨none, rfl, finds_nil⟩
  | cons pObject rest ih =>
      obtain ⟨answer, hanswer, hfinds⟩ := ih fun c hc => h c (List.mem_cons_of_mem _ hc)
      cases pObject with
      | none => exact ⟨answer, hanswer, hfinds.cons fun _ hc => by cases hc⟩
      | some c =>
          obtain ⟨object, hobject⟩ := Option.isSome_iff_exists.mp (h c List.mem_cons_self)
          rw [findIn, hobject, Option.bind_some]
          split
          · next hname => exact ⟨some c, rfl, finds_head hname⟩
          · next hname =>
            exact ⟨answer, hanswer, hfinds.cons fun d hd => Option.some.inj hd ▸ hname⟩

/-- Every empty slot comes behind a match. -/
def Guarded (slots : List (Option ι)) (query : ι → Prop) : Prop :=
  ∀ i : ℕ, slots[i]? = some none → ∃ j < i, ∃ c, slots[j]? = some (some c) ∧ query c

theorem guarded_nil : Guarded [] query := fun i h => by simp at h

theorem not_guarded_none : ¬ Guarded (none :: slots) query := by
  intro h
  obtain ⟨j, hj, -⟩ := h 0 rfl
  exact absurd hj (Nat.not_lt_zero j)

theorem guarded_match {c : ι} (hc : query c) : Guarded (some c :: slots) query := by
  intro i hi
  cases i with
  | zero => cases hi
  | succ i => exact ⟨0, Nat.succ_pos i, c, rfl, hc⟩

theorem guarded_cons_iff {c : ι} (hc : ¬ query c) :
    Guarded (some c :: slots) query ↔ Guarded slots query := by
  constructor
  · intro h i hi
    obtain ⟨j, hj, d, hd, hquery⟩ := h (i + 1) hi
    cases j with
    | zero =>
        cases hd
        exact absurd hquery hc
    | succ j => exact ⟨j, Nat.lt_of_succ_lt_succ hj, d, hd, hquery⟩
  · intro h i hi
    cases i with
    | zero => cases hi
    | succ i =>
        obtain ⟨j, hj, d, hd, hquery⟩ := h i hi
        exact ⟨j + 1, Nat.succ_lt_succ hj, d, hd, hquery⟩

/-- The search gives a live object with the query in a slot if there is one, and null otherwise. -/
def Answers (s : Scene ι ε) (query : ι → Prop) (result : Option (Option ι)) : Prop :=
  ∃ answer, result = some answer ∧
    (∀ c, answer = some c → s.Live c ∧ (∃ i, s.table.Holds i c) ∧ query c) ∧
    (answer = none → ∀ c, s.Live c → (∃ i, s.table.Holds i c) → ¬ query c)

theorem mem_slots_iff {c : ι} : some c ∈ s.table.slots ↔ ∃ i, s.table.Holds i c :=
  List.mem_iff_getElem?

theorem RegistryExact.answers_iff (h : s.RegistryExact) {query : ι → Prop}
    {result : Option (Option ι)} :
    s.Answers query result ↔ ∃ answer, result = some answer ∧ Finds s.table.slots query answer := by
  refine exists_congr fun answer => and_congr_right fun _ => ?_
  constructor
  · rintro ⟨hfound, hmissing⟩
    refine ⟨fun c hc => ?_, fun hnone c hc => ?_⟩
    · obtain ⟨-, hholds, hquery⟩ := hfound c hc
      exact ⟨mem_slots_iff.mpr hholds, hquery⟩
    · obtain ⟨i, hi⟩ := mem_slots_iff.mp hc
      exact hmissing hnone c (h.live_of_holds i c hi) ⟨i, hi⟩
  · rintro ⟨hfound, hmissing⟩
    refine ⟨fun c hc => ?_, fun hnone c _ hholds => ?_⟩
    · obtain ⟨hmem, hquery⟩ := hfound c hc
      obtain ⟨i, hi⟩ := mem_slots_iff.mp hmem
      exact ⟨h.live_of_holds i c hi, ⟨i, hi⟩, hquery⟩
    · exact hmissing hnone c (mem_slots_iff.mpr hholds)

theorem RegistryExact.isSome_of_mem_slots (h : s.RegistryExact) {c : ι}
    (hc : some c ∈ s.table.slots) : (s.objects c).isSome := by
  obtain ⟨i, hi⟩ := mem_slots_iff.mp hc
  exact SceneHierarchy.isSome_of_sceneOf (h.live_of_holds i c hi).1

theorem RegistryExact.answers_find (h : s.RegistryExact) (texts : SearchedTexts ι ν)
    (hashName : UInt64) :
    s.Answers (fun c => texts.name c = hashName) (s.find texts hashName) :=
  h.answers_iff.mpr (exists_findIn fun _ hc => h.isSome_of_mem_slots hc)

end

section

variable {ι ε ν : Type} [DecidableEq ν] {s : Scene ι ε} {texts : SearchedTexts ι ν}
  {slots : List (Option ι)}

/-- `FindByComponent` has an answer exactly when no empty slot is met. -/
theorem exists_findByComponentIn_iff {name : ν} (h : ∀ c, some c ∈ slots → (s.objects c).isSome) :
    (∃ answer, s.findByComponentIn texts name slots = some answer ∧
      Finds slots (fun c => name ∈ texts.components c) answer) ↔
      Guarded slots fun c => name ∈ texts.components c := by
  induction slots with
  | nil => exact iff_of_true ⟨none, rfl, finds_nil⟩ guarded_nil
  | cons pObject rest ih =>
      have hrest := ih fun c hc => h c (List.mem_cons_of_mem _ hc)
      cases pObject with
      | none =>
          refine iff_of_false ?_ not_guarded_none
          rintro ⟨answer, hanswer, -⟩
          cases hanswer
      | some c =>
          obtain ⟨object, hobject⟩ := Option.isSome_iff_exists.mp (h c List.mem_cons_self)
          rw [findByComponentIn, Option.bind_some, hobject, Option.bind_some]
          by_cases hname : name ∈ texts.components c
          · rw [if_pos hname]
            exact iff_of_true ⟨some c, rfl, finds_head hname⟩ (guarded_match hname)
          · have hcons : Guarded (some c :: rest) (fun c => name ∈ texts.components c) ↔
                Guarded rest fun c => name ∈ texts.components c := guarded_cons_iff hname
            rw [if_neg hname, hcons, ← hrest]
            constructor
            · rintro ⟨answer, hanswer, hfinds⟩
              refine ⟨answer, hanswer, fun d hd => ?_, fun hnone d hd => ?_⟩
              · obtain ⟨hmem, hquery⟩ := hfinds.found d hd
                rcases List.mem_cons.mp hmem with heq | hmem
                · cases heq
                  exact absurd hquery hname
                · exact ⟨hmem, hquery⟩
              · exact hfinds.missing hnone d (List.mem_cons_of_mem _ hd)
            · rintro ⟨answer, hanswer, hfinds⟩
              exact ⟨answer, hanswer, hfinds.cons fun d hd => Option.some.inj hd ▸ hname⟩

theorem RegistryExact.answers_findByComponent_iff (h : s.RegistryExact)
    (texts : SearchedTexts ι ν) (name : ν) :
    s.Answers (fun c => name ∈ texts.components c) (s.findByComponent texts name) ↔
      Guarded s.table.slots fun c => name ∈ texts.components c :=
  h.answers_iff.trans (exists_findByComponentIn_iff fun _ hc => h.isSome_of_mem_slots hc)

variable [DecidableEq ι] [DecidableEq ε]

theorem registryExact_of_run {calls : List (ℕ × SceneCall ι ε)} {r : Scene ι ε × List (List ι)}
    (h : Steps.Along step OnScene (empty : Scene ι ε) calls)
    (hr : Steps.run step (empty : Scene ι ε) calls = some r) : r.1.RegistryExact :=
  (h.invariant (I := Registry) (fun _ _ _ hs hcall hr => (hs.step hcall hr).1) registry_empty
    hr).registryExact

end

/-! ## An empty slot -/

/-- Of two objects that were placed the first is removed. The second has the component. -/
def removedInFront : List (ℕ × SceneCall ℕ ℕ) :=
  [(9, .create 0 10), (9, .registerSceneObject 0), (9, .create 1 11),
    (9, .registerSceneObject 1), (9, .prepare false), (9, .remove 0)]

def secondHas : SearchedTexts ℕ ℕ where
  name _ := 0
  components c := if c = 1 then [7] else []

theorem onScene_removedInFront :
    Steps.Along step OnScene (empty : Scene ℕ ℕ) removedInFront := by
  refine ⟨trivial, fun r₁ h₁ => ⟨trivial, fun r₂ h₂ => ⟨trivial, fun r₃ h₃ => ⟨trivial,
    fun r₄ h₄ => ⟨trivial, fun r₅ h₅ => ⟨?_, fun _ _ => trivial⟩⟩⟩⟩⟩⟩
  cases h₁
  cases h₂
  cases h₃
  cases h₄
  cases h₅
  rfl

theorem exists_run_removedInFront :
    ∃ r, Steps.run step (empty : Scene ℕ ℕ) removedInFront = some r ∧
      r.1.table.slots = [none, some 1] :=
  ⟨_, rfl, rfl⟩

end Scene

end SRCommon
