import SRCommon.Common.HashManager

/-!
# Interned strings

A view is hashed as far as it goes, and registered as far as the next zero
byte. The table is faithful exactly when both ends agree for each view that is
the first with its text.
-/

namespace SRCommon

/-- The view ends at the first zero byte. -/
def StringView.Terminated (str : StringView) : Prop :=
  str.memory[str.size]? = some 0 ∧ 0 ∉ str.text

theorem cstr_eq_take_iff (memory : Text) (n : ℕ) :
    0 ∈ memory ∧ memory.cstr = memory.take n ↔ memory[n]? = some 0 ∧ 0 ∉ memory.take n := by
  unfold Text.cstr
  induction memory generalizing n with
  | nil => simp
  | cons c memory ih =>
      by_cases hc : c = 0
      · subst hc
        cases n <;> simp
      · cases n with
        | zero => simp [hc]
        | succ n => simpa [hc, Ne.symm hc] using ih n

theorem stringOfData_eq_some_iff (str : StringView) :
    stringOfData str.memory = some str.text ↔ str.Terminated := by
  rw [StringView.Terminated, StringView.text, ← cstr_eq_take_iff, stringOfData]
  split
  · next hmem => rw [Option.some_inj, and_iff_right hmem]
  · next hmem => exact iff_of_false nofun fun h => hmem h.1

namespace HashManager

/-- Entries stay what they are. -/
def Keeps (m m' : HashManager) : Prop :=
  ∀ hash info, m.strings hash = some info → m'.strings hash = some info

/-- Each string that was added gets its text back, and no entry changes on the way. -/
def Faithful (calls : List AddedString) : Prop :=
  ∃ r, Steps.run addHash ({} : HashManager) calls = some r ∧
    r.2.map r.1.hashToString = calls.map AddedString.text ∧
    Steps.Always addHash (fun m _ m' => m.Keeps m') ({} : HashManager) calls

/-- A view that brings a new text ends at a zero byte. -/
def ViewsTerminated (calls : List AddedString) : Prop :=
  ∀ before str after, calls = before ++ .view str :: after →
    (∀ s ∈ before, s.text ≠ str.text) → str.Terminated

/-- The entries of a table are those of the strings that were added. -/
structure Records (m : HashManager) (seen : List AddedString) : Prop where
  entered : ∀ s ∈ seen, m.strings s.hash ≠ none
  origin : ∀ hash info, m.strings hash = some info → info.hash = hash ∧ ∃ s ∈ seen, s.hash = hash

variable {m m' : HashManager} {seen calls : List AddedString} {s : AddedString}

theorem Keeps.trans {m'' : HashManager} (h : m.Keeps m') (h' : m'.Keeps m'') : m.Keeps m'' :=
  fun hash info hinfo => h' hash info (h hash info hinfo)

theorem records_empty : Records {} [] where
  entered := nofun
  origin := nofun

theorem Keeps.withEntry {hash : UInt64} (h : m.strings hash = none) (str : Text) :
    m.Keeps (m.withEntry hash str) := by
  intro k info hk
  have hne : k ≠ hash := by
    rintro rfl
    rw [h] at hk
    cases hk
  exact (Function.update_of_ne hne _ _).trans hk

theorem Records.known (h : Records m seen) (hs : m.strings s.hash ≠ none) :
    Records m (seen ++ [s]) where
  entered s' hs' := by
    rcases List.mem_append.mp hs' with hs' | hs'
    · exact h.entered s' hs'
    · obtain rfl := List.mem_singleton.mp hs'
      exact hs
  origin hash info hinfo := by
    obtain ⟨hhash, s', hs', heq⟩ := h.origin hash info hinfo
    exact ⟨hhash, s', List.mem_append_left _ hs', heq⟩

theorem Records.withEntry (h : Records m seen) (hs : m.strings s.hash = none) (str : Text) :
    Records (m.withEntry s.hash str) (seen ++ [s]) where
  entered s' hs' := by
    rcases List.mem_append.mp hs' with hs' | hs'
    · obtain ⟨info, hinfo⟩ := Option.ne_none_iff_exists'.mp (h.entered s' hs')
      rw [Keeps.withEntry hs str _ _ hinfo]
      nofun
    · obtain rfl := List.mem_singleton.mp hs'
      change Function.update m.strings s'.hash _ s'.hash ≠ none
      rw [Function.update_self]
      nofun
  origin hash info hinfo := by
    change Function.update m.strings s.hash _ hash = some info at hinfo
    by_cases hne : hash = s.hash
    · subst hne
      rw [Function.update_self, Option.some_inj] at hinfo
      subst hinfo
      exact ⟨rfl, s, List.mem_append_right _ (List.mem_singleton.mpr rfl), rfl⟩
    · rw [Function.update_of_ne hne] at hinfo
      obtain ⟨hhash, s', hs', heq⟩ := h.origin hash info hinfo
      exact ⟨hhash, s', List.mem_append_left _ hs', heq⟩

/-- One call answers with the hash of its string and changes no entry. -/
theorem Records.addHash (h : Records m seen) {r : HashManager × UInt64}
    (hr : m.addHash s = some r) :
    Records r.1 (seen ++ [s]) ∧ r.2 = s.hash ∧ m.Keeps r.1 := by
  cases hs : m.strings s.hash with
  | some info =>
      rw [m.addHash_of_some hs] at hr
      cases hr
      have hknown : m.strings s.hash ≠ none := by
        rw [hs]
        nofun
      exact ⟨h.known hknown, (h.origin _ _ hs).1, fun _ _ hinfo => hinfo⟩
  | none =>
      rw [m.addHash_of_none hs] at hr
      obtain ⟨str, -, rfl⟩ := Option.map_eq_some_iff.mp hr
      exact ⟨h.withEntry hs str, rfl, Keeps.withEntry hs str⟩

theorem Records.run (h : Records m seen) {r : HashManager × List UInt64}
    (hr : Steps.run HashManager.addHash m calls = some r) :
    Records r.1 (seen ++ calls) ∧ r.2 = calls.map AddedString.hash ∧ m.Keeps r.1 ∧
      Steps.Always HashManager.addHash (fun m _ m' => m.Keeps m') m calls := by
  induction calls generalizing m seen r with
  | nil =>
      cases hr
      exact ⟨by rwa [List.append_nil], rfl, fun _ _ hinfo => hinfo, trivial⟩
  | cons s calls ih =>
      obtain ⟨q, hq, hrun⟩ := Option.bind_eq_some_iff.mp hr
      obtain ⟨rest, hrest, rfl⟩ := Option.map_eq_some_iff.mp hrun
      obtain ⟨hrecords, hanswer, hkeeps⟩ := h.addHash hq
      obtain ⟨hrecords', hanswers, hkeeps', halways⟩ := ih hrecords hrest
      refine ⟨by rwa [List.append_assoc] at hrecords', ?_, hkeeps.trans hkeeps', ?_⟩
      · dsimp only
        rw [hanswer, hanswers, List.map_cons]
      · exact ⟨q, hq, hkeeps, halways⟩

/-- The hashes tell the strings apart. -/
def NoCollision (calls : List AddedString) : Prop :=
  ∀ s ∈ calls, ∀ s' ∈ calls, s.hash = s'.hash → s.text = s'.text

theorem faithful_iff (calls : List AddedString) :
    Faithful calls ↔ ∃ r, Steps.run addHash ({} : HashManager) calls = some r ∧
      ∀ s ∈ calls, r.1.hashToString s.hash = s.text := by
  constructor
  · rintro ⟨r, hr, htexts, -⟩
    have hanswers := (records_empty.run hr).2.1
    rw [hanswers, List.map_map, List.map_inj_left] at htexts
    exact ⟨r, hr, htexts⟩
  · rintro ⟨r, hr, htexts⟩
    obtain ⟨-, hanswers, -, halways⟩ := records_empty.run hr
    refine ⟨r, hr, ?_, halways⟩
    rw [hanswers, List.map_map, List.map_inj_left]
    exact htexts

/-- A string is new to the table when its text is. -/
theorem Records.strings_eq_none_iff (h : Records m seen) (hs : s ∈ calls)
    (hseen : ∀ s' ∈ seen, s' ∈ calls) (hcollision : NoCollision calls) :
    m.strings s.hash = none ↔ ∀ s' ∈ seen, s'.text ≠ s.text := by
  constructor
  · intro hnone s' hs' htext
    have hhash : s'.hash = s.hash := congrArg hashArrayRepresentation htext
    exact h.entered s' hs' (hhash ▸ hnone)
  · intro hnew
    by_contra hsome
    obtain ⟨info, hinfo⟩ := Option.ne_none_iff_exists'.mp hsome
    obtain ⟨-, s', hs', hhash⟩ := h.origin _ _ hinfo
    exact hnew s' hs' (hcollision s' (hseen s' hs') s hs hhash)

theorem registered_eq_text (h : ∀ str, s = .view str → str.Terminated) :
    s.registered = some s.text := by
  cases s with
  | string str => rfl
  | cString str => rfl
  | view str => exact (stringOfData_eq_some_iff str).mpr (h str rfl)

theorem hashToString_withEntry_self (hash : UInt64) (str : Text) :
    (m.withEntry hash str).hashToString hash = str := by
  unfold hashToString withEntry
  dsimp only
  rw [Function.update_self]
  rfl

theorem Keeps.hashToString (h : m.Keeps m') {hash : UInt64} (hsome : m.strings hash ≠ none) :
    m'.hashToString hash = m.hashToString hash := by
  obtain ⟨info, hinfo⟩ := Option.ne_none_iff_exists'.mp hsome
  rw [HashManager.hashToString, HashManager.hashToString, h _ _ hinfo, hinfo]

/-- While the views end at a zero byte, every text is registered as it is. -/
theorem Records.run_texts (h : Records m seen)
    (htexts : ∀ s ∈ seen, m.hashToString s.hash = s.text)
    (hcollision : NoCollision (seen ++ calls))
    (hviews : ∀ before str after, calls = before ++ .view str :: after →
      (∀ s ∈ seen ++ before, s.text ≠ str.text) → str.Terminated) :
    ∃ r, Steps.run HashManager.addHash m calls = some r ∧
      ∀ s ∈ seen ++ calls, r.1.hashToString s.hash = s.text := by
  induction calls generalizing m seen with
  | nil => exact ⟨(m, []), rfl, by rwa [List.append_nil]⟩
  | cons s calls ih =>
      have hmem : s ∈ seen ++ s :: calls := List.mem_append_right _ (List.mem_cons_self ..)
      have hnew := h.strings_eq_none_iff hmem (fun s' hs' => List.mem_append_left _ hs') hcollision
      have hcall : ∃ r, m.addHash s = some r ∧ r.1.hashToString s.hash = s.text := by
        cases hs : m.strings s.hash with
        | some info =>
            refine ⟨_, m.addHash_of_some hs, ?_⟩
            -- The entry was made for a string with the same text.
            have hseen := mt hnew.mpr (by rw [hs]; nofun)
            push Not at hseen
            obtain ⟨s', hs', htext⟩ := hseen
            have hhash : s'.hash = s.hash := congrArg hashArrayRepresentation htext
            rw [← hhash, htexts s' hs', htext]
        | none =>
            have hterminated : ∀ str, s = .view str → str.Terminated := by
              rintro str rfl
              exact hviews [] str calls rfl (by rw [List.append_nil]; exact hnew.mp hs)
            refine ⟨(m.withEntry s.hash s.text, s.hash), ?_, hashToString_withEntry_self _ _⟩
            rw [m.addHash_of_none hs, registered_eq_text hterminated, Option.map_some]
      obtain ⟨q, hq, htext⟩ := hcall
      obtain ⟨hrecords, -, hkeeps⟩ := h.addHash hq
      have htexts' : ∀ s' ∈ seen ++ [s], q.1.hashToString s'.hash = s'.text := by
        intro s' hs'
        rcases List.mem_append.mp hs' with hs' | hs'
        · rw [hkeeps.hashToString (h.entered s' hs'), htexts s' hs']
        · obtain rfl := List.mem_singleton.mp hs'
          exact htext
      have happend : seen ++ [s] ++ calls = seen ++ s :: calls := by rw [List.append_assoc]; rfl
      obtain ⟨r, hr, hrest⟩ := ih hrecords htexts' (by rwa [happend]) fun before str after heq hfirst =>
        hviews (s :: before) str after (by rw [heq]; rfl) (by rwa [List.append_assoc] at hfirst)
      refine ⟨(r.1, q.2 :: r.2), ?_, by rwa [happend] at hrest⟩
      rw [Steps.run_cons hq, hr, Option.map_some]

/-- A view whose text is new is registered with what its memory holds. -/
theorem terminated_of_texts (hcollision : NoCollision calls) {r : HashManager × List UInt64}
    (hr : Steps.run addHash ({} : HashManager) calls = some r)
    (htexts : ∀ s ∈ calls, r.1.hashToString s.hash = s.text) : ViewsTerminated calls := by
  rintro before str after rfl hnew
  obtain ⟨q, q', hq, hrun, rfl⟩ := Steps.run_append hr
  obtain ⟨p, hp, hrun⟩ := Option.bind_eq_some_iff.mp hrun
  obtain ⟨rest, hrest, rfl⟩ := Option.map_eq_some_iff.mp hrun
  have hrecords := (records_empty.run hq).1
  have hview : AddedString.view str ∈ before ++ .view str :: after :=
    List.mem_append_right _ (List.mem_cons_self ..)
  have hnone : q.1.strings (AddedString.view str).hash = none :=
    (hrecords.strings_eq_none_iff hview (fun s hs => List.mem_append_left _ hs) hcollision).mpr hnew
  obtain ⟨hrecords', -, -⟩ := hrecords.addHash hp
  have hkeeps := (hrecords'.run hrest).2.2.1
  have hentered : p.1.strings (AddedString.view str).hash ≠ none :=
    hrecords'.entered _ (List.mem_append_right _ (List.mem_singleton.mpr rfl))
  have htext := htexts _ hview
  rw [hkeeps.hashToString hentered] at htext
  rw [q.1.addHash_of_none hnone] at hp
  obtain ⟨data, hdata, rfl⟩ := Option.map_eq_some_iff.mp hp
  rw [hashToString_withEntry_self] at htext
  change data = str.text at htext
  rw [htext] at hdata
  exact (stringOfData_eq_some_iff str).mp hdata

/-- Interning is faithful exactly when each view that brings a new text ends at a zero byte. -/
theorem faithful_iff_viewsTerminated {calls : List AddedString} (hcollision : NoCollision calls) :
    Faithful calls ↔ ViewsTerminated calls := by
  rw [faithful_iff]
  constructor
  · rintro ⟨r, hr, htexts⟩
    exact terminated_of_texts hcollision hr htexts
  · intro hviews
    exact records_empty.run_texts nofun hcollision hviews

/-- A string, a view of all of it and another string. -/
theorem faithful_iff_viewsTerminated_sample :
    let calls : List AddedString := [.string [97, 98], .view ⟨[97, 98, 0], 2, by decide⟩,
      .cString ⟨[98, 0, 97], by decide⟩, .string [98, 0, 97]]
    NoCollision calls ∧ (Faithful calls ↔ ViewsTerminated calls) := by
  intro calls
  have h : NoCollision calls := by
    unfold NoCollision
    decide
  exact ⟨h, faithful_iff_viewsTerminated h⟩

/-- A view into the middle of a longer string is registered with all that follows, and the
same string is given that text later. -/
theorem not_faithful :
    ¬ Faithful [.view ⟨[97, 98, 99, 0], 2, by decide⟩, .string [97, 98]] := by
  rintro ⟨r, hr, htexts, -⟩
  cases hr
  exact absurd htexts (by decide)

end HashManager

end SRCommon
