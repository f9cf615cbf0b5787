import SRCommon.FileSystem.PathParts

/-!
# What a path means

A path is read from the left, and `..` takes the last name away. A reader may pass over
more names than the empty one, as a single dot. The loop of `NormalizePath` removes a
text between slashes, whatever it is, for every name that begins with two dots.
-/

namespace SRCommon

namespace FileSystem

/-- `..`. -/
def parent : Text := Text.lit ".."

/-- The names that a reader passes over. -/
structure PathReading where
  blank : Text → Bool
  blank_nil : blank [] = true
  not_blank_parent : blank parent = false

/-- Behind so many parent directories, the last name first. -/
@[ext]
structure Location where
  absolute : Bool
  ups : ℕ := 0
  names : List Text := []
  deriving DecidableEq

namespace PathReading

variable (reading : PathReading)

/-- The root is its own parent. -/
def step (l : Location) (c : Text) : Location :=
  if reading.blank c then l
  else if c = parent then
    match l.names with
    | [] => if l.absolute then l else { l with ups := l.ups + 1 }
    | _ :: names => { l with names }
  else { l with names := c :: l.names }

def location (path : Text) : Location :=
  (path.splitOn slash).foldl reading.step { absolute := path.head? = some slash }

/-- What the loop takes for parent directories are such, and the text in front of each is a
name. The names that are still there stand last name first. -/
def Cancels (absolute : Bool) : List Text → List Text → Prop
  | _, [] => True
  | names, c :: cs =>
      if parent.isPrefixOf c then
        match names with
        | [] => absolute = false ∨ c = parent ∧ cs = []
        | name :: names =>
            c = parent ∧
              (reading.blank name = false ∨
                absolute = true ∧ ∀ name ∈ names, reading.blank name = true) ∧
              Cancels absolute names cs
      else Cancels absolute (c :: names) cs

/-- The condition for a path, whose first name stays. -/
def CancelsPath (path : Text) : Prop :=
  reading.Cancels (path.head? = some slash) [] (path.splitOn slash).tail

end PathReading

/-! ## Names between slashes -/

/-- A first name and others behind slashes. -/
def join (first : Text) (names : List Text) : Text :=
  first ++ names.flatMap fun name => slash :: name

theorem join_append (first : Text) (a b : List Text) :
    join first (a ++ b) = join first a ++ b.flatMap fun name => slash :: name := by
  simp [join]

theorem join_concat (first : Text) (names : List Text) (name : Text) :
    join first (names ++ [name]) = join first names ++ slash :: name := by
  simp [join]

theorem splitOn_join {first : Text} {names : List Text} (hfirst : slash ∉ first)
    (hnames : ∀ name ∈ names, slash ∉ name) :
    (join first names).splitOn slash = first :: names := by
  induction names generalizing first with
  | nil => simpa [join] using List.splitOn_eq_singleton hfirst
  | cons name names ih =>
      rw [List.forall_mem_cons] at hnames
      have hsplit : join first (name :: names) = first ++ slash :: join name names := by
        simp [join]
      rw [hsplit, List.splitOn_append_cons_self_of_not_mem hfirst, ih hnames.1 hnames.2]

theorem exists_join (path : Text) : ∃ first names, path = join first names ∧ slash ∉ first ∧
    ∀ name ∈ names, slash ∉ name := by
  induction path with
  | nil => exact ⟨[], [], rfl, nofun, nofun⟩
  | cons c path ih =>
      obtain ⟨first, names, rfl, hfirst, hnames⟩ := ih
      by_cases hc : c = slash
      · refine ⟨[], first :: names, by simp [join, hc], nofun, ?_⟩
        exact List.forall_mem_cons.mpr ⟨hfirst, hnames⟩
      · refine ⟨c :: first, names, rfl, ?_, hnames⟩
        rintro (_ | ⟨_, hmem⟩)
        · exact hc rfl
        · exact hfirst hmem

theorem head?_join {first : Text} {names : List Text} (hfirst : slash ∉ first) :
    (join first names).head? = some slash ↔ first = [] ∧ names ≠ [] := by
  cases first with
  | nil => cases names <;> simp [join]
  | cons c first =>
      have hc : c ≠ slash := by
        rintro rfl
        exact hfirst List.mem_cons_self
      simp [join, hc]

/-! ## A round of the loop -/

section

variable {first name c a b rest path : Text} {names : List Text}

theorem findParent_join (hfirst : Path.NoSlash first) (hnames : ∀ name ∈ names, Path.NoSlash name ∧
    parent.isPrefixOf name = false) : findParent (join first names) = none := by
  induction names using List.reverseRecOn with
  | nil =>
      cases h : findParent (join first []) with
      | none => rfl
      | some pos =>
          apply absurd _ hfirst.slash_notMem
          simpa [join] using Path.findParent_mem h
  | append_singleton names name ih =>
      have hname := hnames name (List.mem_append_right _ (List.mem_singleton_self name))
      rw [join_concat, Path.findParent_append_slash _ hname.1 hname.2]
      exact ih fun other hother => hnames other (List.mem_append_left _ hother)

/-- The first name that begins with two dots is found. -/
theorem findParent_append (ha : findParent a = none) (hc : parent.isPrefixOf c = true) :
    findParent (a ++ slash :: (c ++ rest)) = some a.length := by
  obtain ⟨dots, rfl⟩ := List.isPrefixOf_iff_prefix.mp hc
  rw [findParent, List.find?_range_eq_some]
  refine ⟨?_, ?_, fun j hj => ?_⟩
  · rw [List.drop_left]
    exact List.isPrefixOf_iff_prefix.mpr ⟨dots ++ rest, by simp [parent, Text.lit, Text.ch, slash]⟩
  · rw [List.mem_range, List.length_append, List.length_cons]
    omega
  · have hnone := List.find?_eq_none.mp ha j (List.mem_range.mpr hj)
    have hne : a.drop j ≠ [] := by
      rw [Ne, List.drop_eq_nil_iff]
      omega
    rw [List.drop_append_of_le_length (Nat.le_of_lt hj), Path.isPrefixOf_append_slash hne]
    rw [Bool.eq_false_of_not_eq_true hnone]
    rfl

/-- Where the name begins that stands in front of a place. -/
theorem rfindSlash_append_name (hname : slash ∉ name) :
    rfindSlash (a ++ slash :: (name ++ b)) (a.length + 1 + name.length) = some a.length := by
  have hbehind : (((List.range name.length).map (a.length + 1 + ·)).reverse.find? fun i =>
      (a ++ slash :: (name ++ b))[i]? = some slash) = none := by
    rw [List.find?_eq_none]
    intro i hi
    obtain ⟨j, hj, rfl⟩ := List.mem_map.mp (List.mem_reverse.mp hi)
    have hlt := List.mem_range.mp hj
    have hget : (a ++ slash :: (name ++ b))[a.length + 1 + j]? = some name[j] := by
      rw [List.getElem?_append_right (by omega)]
      have hsub : a.length + 1 + j - a.length = j + 1 := by omega
      rw [hsub, List.getElem?_cons_succ, List.getElem?_append_left hlt,
        List.getElem?_eq_getElem hlt]
    rw [hget, decide_eq_true_eq, Option.some.injEq]
    exact fun heq => hname (heq ▸ List.getElem_mem hlt)
  rw [rfindSlash, if_neg (by omega), List.range_add, List.reverse_append, List.find?_append,
    hbehind, Option.none_or, List.range_succ, List.reverse_append, List.reverse_singleton,
    List.singleton_append, List.find?_cons]
  simp

/-- A name goes with what is taken for the parent directory, and one character more. -/
theorem eraseBehind_append (hlength : a.length + name.length + 4 < 2 ^ 64) :
    eraseBehind (a ++ slash :: (name ++ slash :: rest)) a.length (a.length + 1 + name.length) =
      a ++ slash :: rest.drop 3 := by
  have hcount : (UInt64.ofNat (a.length + 1 + name.length) - UInt64.ofNat a.length + 3).toNat =
      name.length + 4 := by
    rw [UInt64.toNat_add, UInt64.toNat_sub, UInt64.toNat_ofNat', UInt64.toNat_ofNat']
    change (_ + 3) % 2 ^ 64 = _
    omega
  have htake : (a ++ slash :: (name ++ slash :: rest)).take (a.length + 1) = a ++ [slash] := by
    rw [List.take_append, List.take_of_length_le (Nat.le_succ _), Nat.add_sub_cancel_left]
    rfl
  have hdrop : (a ++ slash :: (name ++ slash :: rest)).drop (a.length + 1 + (name.length + 4)) =
      rest.drop 3 := by
    have hsplit : a.length + 1 + (name.length + 4) = a.length + (name.length + 4 + 1) := by omega
    rw [hsplit, List.drop_append, List.drop_eq_nil_of_le (by omega), List.nil_append,
      Nat.add_sub_cancel_left, List.drop_succ_cons, List.drop_append,
      List.drop_eq_nil_of_le (by omega), List.nil_append, Nat.add_sub_cancel_left,
      List.drop_succ_cons]
  rw [eraseBehind, hcount, htake, hdrop, List.append_assoc, List.singleton_append]

/-- What stays behind the slash of a removed name. -/
theorem drop_flatMap (names : List Text) :
    slash :: (names.flatMap fun name => slash :: name).drop 1 =
      (if names = [] then [[]] else names).flatMap fun name => slash :: name := by
  cases names <;> simp

theorem eraseParent_join {names' : List Text} (hfirst : Path.NoSlash first)
    (hnames : ∀ name ∈ names, Path.NoSlash name ∧ parent.isPrefixOf name = false)
    (hname : Path.NoSlash name ∧ parent.isPrefixOf name = false)
    (hlength : (join first (names ++ name :: parent :: names')).length < 2 ^ 63) :
    eraseParent (join first (names ++ name :: parent :: names')) =
      some (join first (names ++ if names' = [] then [[]] else names')) := by
  let a := join first names
  let rest := names'.flatMap fun name => slash :: name
  have hpath : join first (names ++ name :: parent :: names') =
      a ++ slash :: (name ++ slash :: (parent ++ rest)) := by
    simp [join_append, a, rest]
  have hpath' : join first (names ++ name :: parent :: names') =
      (a ++ slash :: name) ++ slash :: (parent ++ rest) := by
    simp [hpath]
  have hbefore : findParent (a ++ slash :: name) = none := by
    rw [Path.findParent_append_slash _ hname.1 hname.2]
    exact findParent_join hfirst hnames
  have hpos : findParent (join first (names ++ name :: parent :: names')) =
      some (a.length + 1 + name.length) := by
    rw [hpath', findParent_append hbefore (by decide), List.length_append, List.length_cons]
    congr 1
    omega
  have hshort : a.length + name.length + 4 < 2 ^ 64 := by
    rw [hpath, List.length_append, List.length_cons, List.length_append] at hlength
    omega
  rw [eraseParent, hpos, Option.bind_some, hpath, rfindSlash_append_name hname.1.slash_notMem,
    Option.map_some, eraseBehind_append hshort, join_append, ← drop_flatMap]
  rfl

end

/-! ## Locations -/

namespace PathReading

variable {reading : PathReading} {first name : Text} {names cs : List Text}

theorem location_join (hfirst : slash ∉ first) (hnames : ∀ name ∈ names, slash ∉ name)
    (hne : names ≠ []) : reading.location (join first names) =
      (first :: names).foldl reading.step { absolute := decide (first = []) } := by
  have habsolute : decide ((join first names).head? = some slash) = decide (first = []) := by
    rw [decide_eq_decide, head?_join hfirst]
    exact and_iff_left hne
  rw [location, splitOn_join hfirst hnames, habsolute]

/-- The parent directory takes a name away again. -/
theorem step_step_parent (l : Location) (hname : reading.blank name = false)
    (hparent : name ≠ parent) : reading.step (reading.step l name) parent = l := by
  simp [step, hname, hparent, reading.not_blank_parent]

theorem foldl_step_blank (l : Location) (hnames : ∀ name ∈ names, reading.blank name = true) :
    names.foldl reading.step l = l := by
  induction names with
  | nil => rfl
  | cons name names ih =>
      rw [List.forall_mem_cons] at hnames
      rw [List.foldl_cons, step, if_pos hnames.1, ih hnames.2]

/-- A round of the loop keeps the location. -/
theorem foldl_cancel (hparent : name ≠ parent)
    (hcancel : reading.blank name = false ∨
      decide (first = []) = true ∧ ∀ name ∈ names, reading.blank name = true) :
    (first :: (names.reverse ++ if cs = [] then [[]] else cs)).foldl reading.step
        { absolute := decide (first = []) } =
      (first :: (names.reverse ++ name :: parent :: cs)).foldl reading.step
        { absolute := decide (first = []) } := by
  let l := (first :: names.reverse).foldl reading.step { absolute := decide (first = []) }
  have hl : reading.step (reading.step l name) parent = l := by
    by_cases hblank : reading.blank name = true
    · obtain hname | ⟨habsolute, hnames⟩ := hcancel
      · rw [hname] at hblank
        cases hblank
      · have hempty : first = [] := of_decide_eq_true habsolute
        have hall : ∀ name ∈ first :: names.reverse, reading.blank name = true := by
          simpa [hempty, reading.blank_nil] using hnames
        have hroot : l = { absolute := true } := by
          rw [← habsolute]
          exact foldl_step_blank _ hall
        simp [hroot, step, hblank, reading.not_blank_parent]
    · exact step_step_parent l (Bool.eq_false_of_not_eq_true hblank) hparent
  have hcs : (if cs = [] then [[]] else cs).foldl reading.step l = cs.foldl reading.step l := by
    split
    · rename_i hnil
      rw [hnil, List.foldl_cons, step, if_pos reading.blank_nil]
    · rfl
  rw [← List.cons_append, ← List.cons_append, List.foldl_append, List.foldl_append]
  change (if cs = [] then [[]] else cs).foldl reading.step l =
    (name :: parent :: cs).foldl reading.step l
  rw [hcs, List.foldl_cons, List.foldl_cons, hl]

end PathReading

end FileSystem

namespace Path

open FileSystem

theorem normalize_of_eraseParent {path path' : Text} {hslashes : backslash ∉ path} {fuel : ℕ}
    (h : eraseParent path = some path') :
    normalize (fuel + 1) path hslashes =
      normalize fuel path' (notMem_of_eraseParent hslashes h) := by
  rw [normalize]
  split
  · rename_i hnone
    cases h.symm.trans hnone
  · rename_i path₂ hsome
    cases h.symm.trans hsome
    rfl

theorem normalize_of_normal {path : Text} {hslashes : backslash ∉ path}
    (h : eraseParent path = none) : normalize 1 path hslashes = some ⟨path, hslashes, h⟩ :=
  normalize_text ⟨path, hslashes, h⟩ 0

section

variable {reading : PathReading} {first : Text} {names cs : List Text}

/-- The loop ends in the same location. -/
def Arrives (reading : PathReading) (path : Text) : Prop :=
  ∀ hslashes : backslash ∉ path, ∃ fuel p, normalize fuel path hslashes = some p ∧
    reading.location p.text = reading.location path

theorem arrives_of_normal {path : Text} (h : eraseParent path = none) : Arrives reading path :=
  fun hslashes => ⟨1, ⟨path, hslashes, h⟩, normalize_of_normal h, rfl⟩

theorem Arrives.of_eraseParent {path path' : Text} (h : eraseParent path = some path')
    (hlocation : reading.location path' = reading.location path) (h' : Arrives reading path') :
    Arrives reading path := by
  intro hslashes
  obtain ⟨fuel, p, hp, hloc⟩ := h' (notMem_of_eraseParent hslashes h)
  exact ⟨fuel + 1, p, (normalize_of_eraseParent h).trans hp, hloc.trans hlocation⟩

/-- Without a parent directory the loop stops at once. -/
theorem arrives_of_names (hfirst : NoSlash first)
    (hnames : ∀ name ∈ names, NoSlash name ∧ parent.isPrefixOf name = false) :
    Arrives reading (join first names) := by
  apply arrives_of_normal
  rw [eraseParent, findParent_join hfirst hnames, Option.bind_none]

/-- In front of the first slash there is nothing to take away. -/
theorem eraseParent_first {c rest : Text} (hfirst : NoSlash first) (hne : first ≠ [])
    (hc : parent.isPrefixOf c = true) : eraseParent (first ++ slash :: (c ++ rest)) = none := by
  have hnone : findParent first = none := by
    have hnames : ∀ name ∈ ([] : List Text), NoSlash name ∧ parent.isPrefixOf name = false := nofun
    simpa [join] using findParent_join hfirst hnames
  rw [eraseParent, findParent_append hnone hc, Option.bind_some, Option.map_eq_none_iff, rfindSlash,
    if_neg (by simpa using hne), List.find?_eq_none]
  intro i hi
  have hlt : i < first.length := List.mem_range.mp (List.mem_reverse.mp hi)
  rw [List.getElem?_append_left hlt, List.getElem?_eq_getElem hlt, decide_eq_true_eq,
    Option.some.injEq]
  exact fun heq => hfirst.slash_notMem (heq ▸ List.getElem_mem hlt)

/-- The parent directory of the root alone. -/
theorem arrives_root : Arrives reading (join [] [parent]) := by
  have hnormal : eraseParent (join [] [[]]) = none := by decide
  apply Arrives.of_eraseParent _ _ (arrives_of_normal hnormal)
  · decide
  · rw [PathReading.location_join (by decide) (by decide) (by decide),
      PathReading.location_join (by decide) (by decide) (by decide)]
    simp [PathReading.step, reading.blank_nil, reading.not_blank_parent]

/-- A name and the parent directory behind it have no meaning together. -/
theorem location_cancel {name : Text} (hfirst : NoSlash first)
    (hnames : ∀ name ∈ names, NoSlash name) (hname : NoSlash name) (hcs : ∀ c ∈ cs, NoSlash c)
    (hparent : name ≠ parent) (hcancel : reading.blank name = false ∨
      decide (first = []) = true ∧ ∀ name ∈ names, reading.blank name = true) :
    reading.location (join first (names.reverse ++ if cs = [] then [[]] else cs)) =
      reading.location (join first (names.reverse ++ name :: parent :: cs)) := by
  have hslash (others : List Text) (hothers : ∀ c ∈ others, slash ∉ c) :
      ∀ c ∈ names.reverse ++ others, slash ∉ c := by
    intro c hmem
    rcases List.mem_append.mp hmem with hold | hnew
    · exact (hnames c (List.mem_reverse.mp hold)).slash_notMem
    · exact hothers c hnew
  have hrest : ∀ c ∈ (if cs = [] then [[]] else cs), slash ∉ c := by
    split
    · decide
    · exact fun c hmem => (hcs c hmem).slash_notMem
  have hbehind : ∀ c ∈ name :: parent :: cs, slash ∉ c := by
    rw [List.forall_mem_cons, List.forall_mem_cons]
    exact ⟨hname.slash_notMem, by decide, fun c hmem => (hcs c hmem).slash_notMem⟩
  rw [PathReading.location_join hfirst.slash_notMem (hslash _ hrest) _,
    PathReading.location_join hfirst.slash_notMem (hslash _ hbehind) (by simp)]
  · exact PathReading.foldl_cancel hparent hcancel
  · cases cs <;> simp

/-- The names come one by one, behind those that are still there. -/
theorem arrives_join (hfirst : NoSlash first)
    (hnames : ∀ name ∈ names, NoSlash name ∧ parent.isPrefixOf name = false)
    (hcs : ∀ c ∈ cs, NoSlash c)
    (hlength : (join first (names.reverse ++ cs)).length < 2 ^ 63)
    (hcancels : reading.Cancels (decide (first = [])) names cs) :
    Arrives reading (join first (names.reverse ++ cs)) := by
  induction cs generalizing names with
  | nil =>
      rw [List.append_nil]
      apply arrives_of_names hfirst
      exact fun name hname => hnames name (List.mem_reverse.mp hname)
  | cons c cs ih =>
      rw [List.forall_mem_cons] at hcs
      unfold PathReading.Cancels at hcancels
      by_cases hc : parent.isPrefixOf c = true
      · rw [if_pos hc] at hcancels
        cases names with
        | nil =>
            by_cases hroot : first = []
            · subst hroot
              obtain ⟨rfl, rfl⟩ := hcancels.resolve_left (by decide)
              exact arrives_root
            · apply arrives_of_normal
              have hpath : join first ([].reverse ++ c :: cs) =
                  first ++ slash :: (c ++ cs.flatMap fun name => slash :: name) := by
                simp [join]
              rw [hpath]
              exact eraseParent_first hfirst hroot hc
        | cons name names =>
            obtain ⟨rfl, hcancel, hrest⟩ := hcancels
            rw [List.forall_mem_cons] at hnames
            obtain ⟨hname, hnames⟩ := hnames
            have hreverse : (name :: names).reverse ++ parent :: cs =
                names.reverse ++ name :: parent :: cs := by
              simp
            rw [hreverse] at hlength ⊢
            have hparent : name ≠ parent := by
              rintro rfl
              exact absurd hname.2 (by decide)
            have hnoslash : ∀ name ∈ names, NoSlash name := fun name hmem => (hnames name hmem).1
            apply Arrives.of_eraseParent (eraseParent_join hfirst
              (fun name hmem => hnames name (List.mem_reverse.mp hmem)) hname hlength)
            · exact location_cancel hfirst hnoslash hname.1 hcs.2 hparent hcancel
            · cases cs with
              | nil =>
                  apply arrives_of_names hfirst
                  intro other hother
                  rcases List.mem_append.mp hother with hold | hnew
                  · exact hnames other (List.mem_reverse.mp hold)
                  · cases List.mem_singleton.mp hnew
                    exact ⟨List.forall_mem_nil _, by decide⟩
              | cons next cs =>
                  rw [if_neg (List.cons_ne_nil _ _)]
                  apply ih hnames hcs.2 _ hrest
                  apply lt_of_le_of_lt _ hlength
                  simp [join]
                  omega
      · rw [if_neg hc] at hcancels
        have hreverse : names.reverse ++ c :: cs = (c :: names).reverse ++ cs := by
          simp
        rw [hreverse] at hlength ⊢
        apply ih _ hcs.2 hlength hcancels
        exact List.forall_mem_cons.mpr ⟨⟨hcs.1, Bool.eq_false_of_not_eq_true hc⟩, hnames⟩

end

/-- The constructor ends, and its path is in the same location as the text. -/
theorem location_ofString (reading : PathReading) {path : Text} (hlength : path.length < 2 ^ 63)
    (hcancels : reading.CancelsPath (makePath path)) :
    ∃ fuel p, ofString fuel path = some p ∧
      reading.location p.text = reading.location (makePath path) := by
  have hslashes := backslash_notMem_makePath path
  have hsame : (makePath path).length = path.length := List.length_map ..
  suffices harrives : Arrives reading (makePath path) by
    exact harrives hslashes
  rw [← hsame] at hlength
  obtain ⟨first, names, hjoin, hfirst, hnames⟩ := exists_join (makePath path)
  rw [hjoin] at hslashes hlength hcancels ⊢
  have hclean (text : Text) (hslash : slash ∉ text) (hback : backslash ∉ text) : NoSlash text := by
    intro c hc
    simp [isSlash, ne_of_mem_of_not_mem hc hslash, ne_of_mem_of_not_mem hc hback]
  have hfirst' : NoSlash first :=
    hclean first hfirst fun hmem => hslashes (List.mem_append_left _ hmem)
  have hnames' : ∀ name ∈ names, NoSlash name := by
    intro name hname
    apply hclean name (hnames name hname)
    intro hmem
    apply hslashes
    apply List.mem_append_right
    exact List.mem_flatMap.mpr ⟨name, hname, List.mem_cons_of_mem _ hmem⟩
  have hnone : ∀ name ∈ ([] : List Text), NoSlash name ∧ parent.isPrefixOf name = false := nofun
  apply arrives_join hfirst' hnone hnames' hlength
  rw [PathReading.CancelsPath, splitOn_join hfirst hnames, List.tail_cons] at hcancels
  cases names with
  | nil => trivial
  | cons name names =>
      have habsolute : decide ((join first (name :: names)).head? = some slash) =
          decide (first = []) := by
        rw [decide_eq_decide, head?_join hfirst]
        exact and_iff_left (List.cons_ne_nil _ _)
      rwa [habsolute] at hcancels

/-- Only the empty name stands for no step. -/
def emptyReading : PathReading where
  blank c := c.isEmpty
  blank_nil := rfl
  not_blank_parent := by decide

theorem location_ofString_backslash :
    ∃ fuel p, ofString fuel (Text.lit "a\\b/../c") = some p ∧
      emptyReading.location p.text =
        emptyReading.location (makePath (Text.lit "a\\b/../c")) := by
  have hcancels : emptyReading.CancelsPath (makePath (Text.lit "a\\b/../c")) := by
    have hnames : (makePath (Text.lit "a\\b/../c")).splitOn slash =
        [Text.lit "a", Text.lit "b", parent, Text.lit "c"] := by
      decide
    rw [PathReading.CancelsPath, hnames]
    exact ⟨rfl, .inl rfl, trivial⟩
  exact location_ofString emptyReading (by decide) hcancels

/-- Nothing is taken away from `/../a`, and the loop goes on. -/
theorem not_location_ofString :
    ¬∀ (reading : PathReading) (path : Text), path.length < 2 ^ 63 →
      ∃ fuel p, ofString fuel path = some p ∧
        reading.location p.text = reading.location (makePath path) := by
  intro h
  obtain ⟨fuel, p, hp, -⟩ := h emptyReading (Text.lit "/../a") (by decide)
  have hround : eraseParent (Text.lit "/../a") = some (Text.lit "/../a") := by decide
  have hnone (fuel : ℕ) (hslashes : backslash ∉ Text.lit "/../a") :
      normalize fuel (Text.lit "/../a") hslashes = none := by
    induction fuel with
    | zero => rfl
    | succ fuel ih => exact (normalize_of_eraseParent hround).trans ih
  have hmake : makePath (Text.lit "/../a") = Text.lit "/../a" := by decide
  rw [ofString] at hp
  simp only [hmake, hnone] at hp
  cases hp

end Path

end SRCommon
