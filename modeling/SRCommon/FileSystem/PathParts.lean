import Mathlib.Data.List.Basic
import Mathlib.Data.List.Find
import Mathlib.Tactic.Common
import SRCommon.FileSystem.Path

/-!
# Parts of paths

`Concat` puts a slash between two texts that have none there, `RemoveSubPath`
takes one character more away than the path has. The name and the extension of
a path are parted at the last dot, which is looked for in the whole text.
-/

namespace SRCommon

namespace FileSystem

def dot : UInt8 := Text.ch '.'

/-- `std::string::find`. -/
def find (sub : Text) : Text → Option ℕ
  | [] => if sub = [] then some 0 else none
  | c :: text => if sub.isPrefixOf (c :: text) then some 0 else (find sub text).map (· + 1)

/-- `find_last_of` for the characters with a property. -/
def findLastOf (p : UInt8 → Bool) : Text → Option ℕ
  | [] => none
  | c :: text => ((findLastOf p text).map (· + 1)).or (if p c then some 0 else none)

def isSlash (c : UInt8) : Bool := c = slash || c = backslash

/-- `std::out_of_range`. -/
inductive StringError where
  | outOfRange
  deriving DecidableEq

/-- `StringUtils::Remove`. The sum is one of two `uint32_t`. -/
def remove (source : Text) (start count : UInt32) : Except StringError Text :=
  if source.length < count.toNat then .ok []
  else if source.length < (count + start).toNat then .error .outOfRange
  else .ok ((source.drop (count + start).toNat).take (source.length - count.toNat))

theorem find_append (sub text : Text) : find sub (sub ++ text) = some 0 := by
  cases h : sub ++ text with
  | nil =>
      rw [find, if_pos (List.append_eq_nil_iff.mp h).1]
  | cons c rest =>
      rw [find, ← h, if_pos (List.isPrefixOf_iff_prefix.mpr (List.prefix_append sub text))]

section

variable {p : UInt8 → Bool}

theorem findLastOf_append (a b : Text) :
    findLastOf p (a ++ b) = ((findLastOf p b).map (a.length + ·)).or (findLastOf p a) := by
  induction a with
  | nil =>
      simp [findLastOf]
  | cons c a ih =>
      rw [List.cons_append, findLastOf, ih, findLastOf]
      cases findLastOf p b with
      | none => rfl
      | some k =>
          simp only [Option.map_some, Option.some_or, List.length_cons, Option.some.injEq]
          omega

theorem findLastOf_eq_none {text : Text} : findLastOf p text = none ↔ ∀ c ∈ text, p c = false := by
  induction text with
  | nil => simp [findLastOf]
  | cons c text ih =>
      rw [findLastOf, Option.or_eq_none_iff, Option.map_eq_none_iff, ih, List.forall_mem_cons]
      cases p c <;> simp

/-- The place parts the text, with a character of the property there and none behind it. -/
theorem findLastOf_split {text : Text} {k : ℕ} (h : findLastOf p text = some k) :
    ∃ c, p c ∧ text = text.take k ++ c :: text.drop (k + 1) ∧
      ∀ c ∈ text.drop (k + 1), p c = false := by
  induction text generalizing k with
  | nil => cases h
  | cons c text ih =>
      rw [findLastOf] at h
      cases hrest : findLastOf p text with
      | none =>
          rw [hrest, Option.map_none, Option.none_or] at h
          split at h
          · next hc =>
              cases h
              exact ⟨c, hc, rfl, findLastOf_eq_none.mp hrest⟩
          · cases h
      | some j =>
          rw [hrest] at h
          cases h
          obtain ⟨c', hc', heq, hnone⟩ := ih hrest
          exact ⟨c', hc', congrArg (c :: ·) heq, hnone⟩

theorem lt_of_findLastOf {text : Text} {k : ℕ} (h : findLastOf p text = some k) :
    k < text.length := by
  obtain ⟨c, -, heq, -⟩ := findLastOf_split h
  have hlength := congrArg List.length heq
  rw [List.length_append, List.length_take, List.length_cons, List.length_drop] at hlength
  omega

end

end FileSystem

open FileSystem

namespace Path

/-! ## Two paths -/

/-- What `Concat` gives to the constructor. -/
def joined (path path' : Text) : Text :=
  if (path ≠ [] ∧ path.getLast? ≠ some slash) ∧ path' ≠ [] ∧ path'.head? ≠ some slash then
    path ++ slash :: path'
  else path ++ path'

def concat (fuel : ℕ) (this path : Path) : Option Path := ofString fuel (joined this.text path.text)

/-- There is no path where the constructor does not come to its end. -/
def removeSubPath (fuel : ℕ) (this subPath : Path) : Except StringError (Option Path) :=
  match find subPath.text this.text with
  | none => .ok (some this)
  | some index =>
      if this.text.length = subPath.text.length then .ok (some empty)
      else (remove this.text (UInt32.ofNat index) (UInt32.ofNat (subPath.text.length + 1))).map
        (ofString fuel)

/-- The paths are joined by a slash, and the text needs no change. -/
structure Joins (p q : Path) : Prop where
  nonempty : p.text ≠ []
  open_ : p.text.getLast? ≠ some slash
  normal : eraseParent (p.text ++ slash :: q.text) = none
  short : p.text.length + 1 < 2 ^ 32

theorem normalize_some {fuel : ℕ} {text : Text} {hslashes : backslash ∉ text} {path : Path}
    (h : normalize (fuel + 1) text hslashes = some path) :
    (eraseParent text = none ∧ path.text = text) ∨
      ∃ text', ∃ herase : eraseParent text = some text',
        normalize fuel text' (notMem_of_eraseParent hslashes herase) = some path := by
  rw [normalize] at h
  split at h
  · next hnone =>
      cases h
      exact .inl ⟨hnone, rfl⟩
  · next text' hsome => exact .inr ⟨text', hsome, h⟩

/-- The constructor makes one path of a text. -/
theorem normalize_unique {fuel fuel' : ℕ} {text : Text} {hslashes : backslash ∉ text}
    {path path' : Path} (h : normalize fuel text hslashes = some path)
    (h' : normalize fuel' text hslashes = some path') : path = path' := by
  induction fuel generalizing fuel' text with
  | zero => cases h
  | succ fuel ih =>
      cases fuel' with
      | zero => cases h'
      | succ fuel' =>
          rcases normalize_some h with ⟨hnone, htext⟩ | ⟨text₁, herase, hrest⟩ <;>
            rcases normalize_some h' with ⟨hnone', htext'⟩ | ⟨text₂, herase', hrest'⟩
          · exact Path.ext (htext.trans htext'.symm)
          · cases hnone.symm.trans herase'
          · cases hnone'.symm.trans herase
          · cases herase.symm.trans herase'
            exact ih hrest hrest'

theorem ofString_of_normal {text : Text} (hslashes : backslash ∉ text)
    (hnormal : eraseParent text = none) (fuel : ℕ) :
    ofString (fuel + 1) text = some ⟨text, hslashes, hnormal⟩ :=
  ofString_text ⟨text, hslashes, hnormal⟩ fuel

theorem concat_nil (p q : Path) (fuel : ℕ) (hq : q.text = []) :
    p.concat (fuel + 1) q = some p := by
  have hjoined : joined p.text q.text = p.text := by
    rw [joined, if_neg (fun h => h.2.1 hq), hq, List.append_nil]
  rw [concat, hjoined, ofString_text]

theorem removeSubPath_self (p : Path) (fuel : ℕ) : p.removeSubPath fuel p = .ok (some empty) := by
  have hfind : find p.text p.text = some 0 := by
    have := find_append p.text []
    rwa [List.append_nil] at this
  rw [removeSubPath, hfind]
  exact if_pos rfl

theorem remove_prefix_slash {p q : Text} (h : p.length + 1 < 2 ^ 32) :
    remove (p ++ slash :: q) 0 (UInt32.ofNat (p.length + 1)) = .ok q := by
  have hcount : (UInt32.ofNat (p.length + 1)).toNat = p.length + 1 := UInt32.toNat_ofNat_of_lt' h
  have hlength : (p ++ slash :: q).length = p.length + 1 + q.length := by
    rw [List.length_append, List.length_cons]
    omega
  rw [remove, UInt32.add_zero, hcount, hlength, if_neg (by omega), if_neg (by omega),
    List.drop_append, List.drop_eq_nil_of_le (by omega), Nat.add_sub_cancel_left, List.nil_append,
    Nat.add_sub_cancel_left, List.drop_succ_cons, List.drop_zero, List.take_length]

/-- What was put behind a path comes back when the path is removed, unless the place between them
is no slash of `Concat` or the text is changed. -/
theorem removeSubPath_concat (p q : Path) (hq : q.text.head? ≠ some slash)
    (h : q.text = [] ∨ Joins p q) (fuel : ℕ) :
    ∃ r, p.concat (fuel + 1) q = some r ∧ r.removeSubPath (fuel + 1) p = .ok (some q) := by
  by_cases hnil : q.text = []
  · refine ⟨p, concat_nil p q fuel hnil, ?_⟩
    rw [removeSubPath_self]
    exact congrArg (Except.ok ∘ some) (Path.ext hnil.symm)
  · have hjoins := h.resolve_left hnil
    have hjoined : joined p.text q.text = p.text ++ slash :: q.text :=
      if_pos ⟨⟨hjoins.nonempty, hjoins.open_⟩, hnil, hq⟩
    have hslashes : backslash ∉ p.text ++ slash :: q.text := by
      simp only [List.mem_append, List.mem_cons, not_or]
      exact ⟨p.slashes, by decide, q.slashes⟩
    refine ⟨⟨_, hslashes, hjoins.normal⟩, ?_, ?_⟩
    · rw [concat, hjoined, ofString_of_normal hslashes hjoins.normal]
    · have hlength : (p.text ++ slash :: q.text).length ≠ p.text.length := by simp
      rw [removeSubPath, find_append]
      dsimp only
      rw [if_neg hlength]
      change (remove _ 0 _).map _ = _
      rw [remove_prefix_slash hjoins.short]
      exact congrArg Except.ok (ofString_text q fuel)

theorem removeSubPath_concat_c :
    (⟨Text.lit "c", by decide, by decide⟩ : Path).text.head? ≠ some slash ∧
      ∃ r, concat 1 ⟨Text.lit "a/b", by decide, by decide⟩ ⟨Text.lit "c", by decide, by decide⟩ =
          some r ∧
        r.removeSubPath 1 ⟨Text.lit "a/b", by decide, by decide⟩ =
          .ok (some ⟨Text.lit "c", by decide, by decide⟩) :=
  ⟨by decide, removeSubPath_concat ⟨Text.lit "a/b", by decide, by decide⟩
    ⟨Text.lit "c", by decide, by decide⟩ (by decide)
    (.inr ⟨by decide, by decide, by decide, by decide⟩) 0⟩

/-- `a/b` joined with `../x` is `a/x`, where `a/b` is not found. -/
theorem not_removeSubPath_concat :
    ¬∀ p q : Path, q.text.head? ≠ some slash →
      ∃ fuel r, p.concat fuel q = some r ∧ r.removeSubPath fuel p = .ok (some q) := by
  intro hclaim
  obtain ⟨fuel, r, hr, hremoved⟩ := hclaim ⟨Text.lit "a/b", by decide, by decide⟩
    ⟨Text.lit "../x", by decide, by decide⟩ (by decide)
  have htext : (ofString 2 (Text.lit "a/b/../x")).map Path.text = some (Text.lit "a/x") := by
    decide
  obtain ⟨r', hr', htext⟩ := Option.map_eq_some_iff.mp htext
  rw [normalize_unique hr hr', removeSubPath, htext] at hremoved
  cases htext.symm.trans (congrArg Path.text (Option.some.inj (Except.ok.inj hremoved)))

/-! ## Name and extension -/

/-- `ExtractNameAndExt`: `m_name` and `m_ext`. -/
def extractNameAndExt (path : Text) : Text × Text :=
  match findLastOf isSlash path with
  | none =>
      match findLastOf (· = dot) path with
      | some index => (path.take index, path.drop (index + 1))
      | none => (path, [])
  | some slashIndex =>
      let index := slashIndex + 1
      match findLastOf (· = dot) path with
      | some dotIndex =>
          if index < dotIndex then
            ((path.drop index).take (dotIndex - index), path.drop (dotIndex + 1))
          else (path.drop index, [])
      | none => (path.drop index, [])

def getBaseName (this : Path) : Text := (extractNameAndExt this.text).1

def getExtension (this : Path) : Text := (extractNameAndExt this.text).2

def getBaseNameAndExt (this : Path) : Text :=
  if this.getExtension = [] then this.getBaseName else this.getBaseName ++ dot :: this.getExtension

def getWithoutExtension (this : Path) : Text :=
  if this.getExtension = [] then this.text
  else this.text.take (this.text.length - (this.getExtension.length + 1))

/-- `f` is a name of a file, without slashes. -/
def NoSlash (f : Text) : Prop := ∀ c ∈ f, isSlash c = false

instance (f : Text) : Decidable (NoSlash f) := List.decidableBAll (fun c => isSlash c = false) f

/-- The name and the extension which are found behind a slash. -/
def splitName (f : Text) : Text × Text :=
  match findLastOf (· = dot) f with
  | some index => if 0 < index then (f.take index, f.drop (index + 1)) else (f, [])
  | none => (f, [])

theorem extractNameAndExt_noSlash {f : Text} (hf : NoSlash f) :
    extractNameAndExt f = match findLastOf (· = dot) f with
      | some index => (f.take index, f.drop (index + 1))
      | none => (f, []) := by
  rw [extractNameAndExt, findLastOf_eq_none.mpr hf]

/-- Only the text behind the last slash counts. -/
theorem extractNameAndExt_slash {f : Text} (hf : NoSlash f) (d : Text) :
    extractNameAndExt (d ++ slash :: f) = splitName f := by
  have hslash : findLastOf isSlash (d ++ slash :: f) = some d.length := by
    rw [findLastOf_append, findLastOf, findLastOf_eq_none.mpr hf]
    rfl
  have hdrop (k : ℕ) : (d ++ slash :: f).drop (d.length + 1 + k) = f.drop k := by
    rw [List.drop_append, List.drop_eq_nil_of_le (by omega), List.nil_append,
      show d.length + 1 + k - d.length = k + 1 by omega, List.drop_succ_cons]
  have hindex : (d ++ slash :: f).drop (d.length + 1) = f := hdrop 0
  rw [extractNameAndExt, hslash, splitName, findLastOf_append, findLastOf]
  dsimp only
  rw [hindex]
  cases hdot : findLastOf (· = dot) f with
  | some k =>
      simp only [Option.map_some, Option.some_or]
      by_cases hk : 0 < k
      · rw [if_pos hk, if_pos (by omega), show d.length + (k + 1) - (d.length + 1) = k by omega,
          show d.length + (k + 1) + 1 = d.length + 1 + (k + 1) by omega, hdrop]
      · rw [if_neg hk, if_neg (by omega)]
  | none =>
      have hnone : (if (decide (slash = dot)) = true then some 0 else none) = (none : Option ℕ) :=
        if_neg (by decide)
      simp only [Option.map_none, Option.none_or, hnone]
      cases hd : findLastOf (· = dot) d with
      | none => rfl
      | some j => exact if_neg (by have := lt_of_findLastOf hd; omega)

theorem NoSlash.backslash_notMem {f : Text} (hf : NoSlash f) : backslash ∉ f :=
  fun h => absurd (hf _ h) (by decide)

theorem NoSlash.slash_notMem {f : Text} (hf : NoSlash f) : slash ∉ f :=
  fun h => absurd (hf _ h) (by decide)

theorem findParent_mem {text : Text} {pos : ℕ} (h : findParent text = some pos) : slash ∈ text := by
  have hstarts := List.find?_some h
  obtain ⟨rest, hrest⟩ := List.isPrefixOf_iff_prefix.mp hstarts
  apply List.mem_of_mem_drop
  rw [← hrest]
  exact List.mem_append_left _ (by decide)

theorem NoSlash.eraseParent {f : Text} (hf : NoSlash f) : eraseParent f = none := by
  cases h : findParent f with
  | none => rw [FileSystem.eraseParent, h, Option.bind_none]
  | some pos => exact absurd (findParent_mem h) hf.slash_notMem

/-- A round keeps the slash in front of what it takes away, and the end of the text. -/
theorem eraseParent_some {text text' : Text} (h : eraseParent text = some text') :
    slash ∈ text' ∧ (text'.getLast? = text.getLast? ∨ text'.getLast? = some slash) := by
  obtain ⟨pos, -, h⟩ := Option.bind_eq_some_iff.mp h
  obtain ⟨splash, hsplash, rfl⟩ := Option.map_eq_some_iff.mp h
  have hslash : text[splash]? = some slash := by
    rw [rfindSlash] at hsplash
    have hfound := List.find?_some hsplash
    exact of_decide_eq_true hfound
  have htake : text.take (splash + 1) = text.take splash ++ [slash] := by
    rw [List.take_add_one, hslash]
    rfl
  rw [eraseBehind, htake]
  refine ⟨List.mem_append_left _ List.mem_concat_self, ?_⟩
  by_cases hdrop : text.drop (splash + 1 +
      (UInt64.ofNat pos - UInt64.ofNat splash + 3).toNat) = []
  · rw [hdrop, List.append_nil]
    exact .inr List.getLast?_concat
  · rw [List.getLast?_append_of_ne_nil _ hdrop, List.getLast?_drop, if_neg]
    · exact .inl rfl
    · exact fun hle => hdrop (List.drop_eq_nil_of_le hle)

theorem normalize_slash {fuel : ℕ} {text : Text} {hslashes : backslash ∉ text} {path : Path}
    (h : normalize fuel text hslashes = some path) (hslash : slash ∈ text) :
    slash ∈ path.text ∧
      (path.text.getLast? = text.getLast? ∨ path.text.getLast? = some slash) := by
  induction fuel generalizing text with
  | zero => cases h
  | succ fuel ih =>
      rcases normalize_some h with ⟨-, htext⟩ | ⟨text', herase, hrest⟩
      · rw [htext]
        exact ⟨hslash, .inl rfl⟩
      · obtain ⟨hslash', hlast'⟩ := eraseParent_some herase
        obtain ⟨hpath, hlast⟩ := ih hrest hslash'
        refine ⟨hpath, ?_⟩
        rcases hlast with hlast | hlast
        · rw [hlast]
          exact hlast'
        · exact .inr hlast

/-- `GetBaseNameAndExt` of the two parts. -/
def joinName (parts : Text × Text) : Text :=
  if parts.2 = [] then parts.1 else parts.1 ++ dot :: parts.2

/-- The last dot, if there is one, is neither the first nor the last character. -/
def DotInside (f : Text) : Prop :=
  ∀ k, findLastOf (· = dot) f = some k → 0 < k ∧ k + 1 < f.length

theorem ne_take {f : Text} {k : ℕ} (hk : k < f.length) : f ≠ f.take k := by
  intro h
  have := congrArg List.length h
  rw [List.length_take] at this
  omega

theorem split_dot {f : Text} {k : ℕ} (h : findLastOf (· = dot) f = some k) :
    f = f.take k ++ dot :: f.drop (k + 1) := by
  obtain ⟨c, hc, heq, -⟩ := findLastOf_split h
  rwa [of_decide_eq_true hc] at heq

theorem DotInside.joinName_splitName {f : Text} (hdot : DotInside f) :
    joinName (splitName f) = f := by
  rw [splitName]
  cases h : findLastOf (· = dot) f with
  | none => exact if_pos rfl
  | some k =>
      obtain ⟨hfirst, hlast⟩ := hdot k h
      dsimp only
      rw [if_pos hfirst, joinName, if_neg, ← split_dot h]
      intro hnil
      have := congrArg List.length hnil
      rw [List.length_drop, List.length_nil] at this
      omega

theorem DotInside.extractNameAndExt {f : Text} (hdot : DotInside f) (hf : NoSlash f) :
    extractNameAndExt f = splitName f := by
  rw [extractNameAndExt_noSlash hf, splitName]
  cases h : findLastOf (· = dot) f with
  | none => rfl
  | some k => exact (if_pos (hdot k h).1).symm

/-- Where the parts behind a slash give the name back, nothing but a dot at the end is lost. -/
theorem eq_of_joinName {f g : Text} (hf : NoSlash f) (hjoin : joinName (splitName g) = f)
    (hparts : splitName g = extractNameAndExt f) :
    DotInside f ∧ (g = f ∨ (dot ∉ f ∧ g = f ++ [dot])) := by
  rw [extractNameAndExt_noSlash hf] at hparts
  rw [splitName] at hjoin hparts
  cases hg : findLastOf (· = dot) g with
  | none =>
      rw [hg] at hjoin
      cases hjoin
      exact ⟨fun k hk => absurd (hg.symm.trans hk) (by simp), .inl rfl⟩
  | some k =>
      rw [hg] at hjoin hparts
      dsimp only at hjoin hparts
      have hsplit := split_dot hg
      by_cases hk : 0 < k
      · rw [if_pos hk] at hjoin hparts
        by_cases hext : g.drop (k + 1) = []
        · have htake : g.take k = f := (if_pos hext).symm.trans hjoin
          rw [htake] at hparts hsplit
          rw [hext] at hsplit
          cases hdot : findLastOf (· = dot) f with
          | none =>
              refine ⟨fun j hj => absurd (hdot.symm.trans hj) (by simp), .inr ⟨?_, hsplit⟩⟩
              exact fun hmem => absurd (findLastOf_eq_none.mp hdot _ hmem) (by decide)
          | some j =>
              rw [hdot] at hparts
              exact absurd (congrArg Prod.fst hparts) (ne_take (lt_of_findLastOf hdot))
        · have hgf : g = f := hsplit.trans ((if_neg hext).symm.trans hjoin)
          refine ⟨fun j hj => ?_, .inl hgf⟩
          rw [← hgf] at hj ⊢
          cases hg.symm.trans hj
          refine ⟨hk, Nat.lt_of_not_le fun hle => hext (List.drop_eq_nil_of_le hle)⟩
      · rw [if_neg hk] at hjoin hparts
        have hgf : g = f := (if_pos rfl).symm.trans hjoin
        rw [← hgf, hg] at hparts
        exact absurd (congrArg Prod.fst hparts) (ne_take (lt_of_findLastOf hg))

/-- An extension is what stands behind a dot at the end of the path. -/
theorem extractNameAndExt_snd {text : Text} (h : (extractNameAndExt text).2 ≠ []) :
    ∃ start, text = start ++ dot :: (extractNameAndExt text).2 := by
  revert h
  rw [extractNameAndExt]
  cases findLastOf isSlash text <;> cases hdot : findLastOf (· = dot) text
  · exact fun h => absurd rfl h
  · exact fun _ => ⟨_, split_dot hdot⟩
  · exact fun h => absurd rfl h
  · dsimp only
    split
    · exact fun _ => ⟨_, split_dot hdot⟩
    · exact fun h => absurd rfl h

theorem getWithoutExtension_append (path : Path) (h : path.getExtension ≠ []) :
    path.getWithoutExtension ++ dot :: path.getExtension = path.text := by
  obtain ⟨start, hstart⟩ := extractNameAndExt_snd h
  change path.text = start ++ dot :: path.getExtension at hstart
  have hlength := congrArg List.length hstart
  rw [List.length_append, List.length_cons] at hlength
  have htake : path.text.take start.length = start := by
    rw [hstart, List.take_left]
  rw [getWithoutExtension, if_neg h, show path.text.length - (path.getExtension.length + 1) =
    start.length by omega, htake, ← hstart]

/-- The parts of the path are those of the name alone, and make the name and the path again. -/
structure Alike (f : Text) (path alone : Path) : Prop where
  name : path.getBaseName = alone.getBaseName
  extension : path.getExtension = alone.getExtension
  base : path.getBaseNameAndExt = f ∧ alone.getBaseNameAndExt = f
  without : ∀ p ∈ [path, alone], p.getExtension ≠ [] →
    p.getWithoutExtension ++ dot :: p.getExtension = p.text

def SplitsAlike (d f : Text) : Prop :=
  ∃ fuel path alone, ofString fuel (d ++ slash :: f) = some path ∧ ofString fuel f = some alone ∧
    Alike f path alone

/-- The constructor leaves the name at the end of the path. -/
def KeepsName (d f : Text) : Prop :=
  ∃ fuel path, ofString fuel (d ++ slash :: f) = some path ∧ slash :: f <:+ path.text

theorem ofString_noSlash {f : Text} (hf : NoSlash f) (fuel : ℕ) :
    ofString (fuel + 1) f = some ⟨f, hf.backslash_notMem, hf.eraseParent⟩ :=
  ofString_of_normal hf.backslash_notMem hf.eraseParent fuel

theorem ofString_succ {fuel : ℕ} {text : Text} {path : Path} (h : ofString fuel text = some path) :
    ∃ n, fuel = n + 1 := by
  cases fuel with
  | zero => cases h
  | succ n => exact ⟨n, rfl⟩

theorem Alike.of_keeps {f pre : Text} {path : Path} (hf : NoSlash f) (hdot : DotInside f)
    (hpath : path.text = pre ++ slash :: f) :
    Alike f path ⟨f, hf.backslash_notMem, hf.eraseParent⟩ := by
  have hparts : extractNameAndExt path.text = extractNameAndExt f := by
    rw [hpath, extractNameAndExt_slash hf, hdot.extractNameAndExt hf]
  have hjoin : joinName (extractNameAndExt f) = f := by
    rw [hdot.extractNameAndExt hf, hdot.joinName_splitName]
  refine ⟨congrArg Prod.fst hparts, congrArg Prod.snd hparts, ⟨?_, hjoin⟩, ?_⟩
  · exact (congrArg joinName hparts).trans hjoin
  · exact fun p _ => p.getWithoutExtension_append

theorem makePath_slash (d : Text) {f : Text} (hf : NoSlash f) :
    makePath (d ++ slash :: f) = makePath d ++ slash :: f := by
  have hself : makePath (slash :: f) = slash :: f :=
    makePath_eq_self (List.not_mem_cons_of_ne_of_not_mem (by decide) hf.backslash_notMem)
  rw [makePath, List.map_append]
  exact congrArg (makePath d ++ ·) hself

/-- A path behind a directory ends with a name, and the constructor does not put a dot there. -/
theorem ofString_slash {fuel : ℕ} {d f : Text} {path : Path} (hf : NoSlash f)
    (h : ofString fuel (d ++ slash :: f) = some path) :
    ∃ pre g, path.text = pre ++ slash :: g ∧ NoSlash g ∧ (g = f ++ [dot] → dot ∈ f) := by
  have hmake := makePath_slash d hf
  obtain ⟨hmem, hlast⟩ := normalize_slash h (by rw [hmake]; simp)
  cases hfind : findLastOf isSlash path.text with
  | none => exact absurd (findLastOf_eq_none.mp hfind _ hmem) (by decide)
  | some k =>
      obtain ⟨c, hc, hsplit, hnone⟩ := findLastOf_split hfind
      have hslash : c = slash := by
        rcases Bool.or_eq_true_iff.mp hc with hc | hc
        · exact of_decide_eq_true hc
        · apply absurd path.slashes
          rw [hsplit, of_decide_eq_true hc]
          simp
      rw [hslash] at hsplit
      refine ⟨_, _, hsplit, hnone, fun hg => ?_⟩
      have hend : path.text.getLast? = some dot := by
        rw [hsplit, hg, ← List.cons_append, ← List.append_assoc, List.getLast?_concat]
      have hfirst : (makePath d ++ slash :: f).getLast? = (slash :: f).getLast? :=
        List.getLast?_append_of_ne_nil _ (List.cons_ne_nil _ _)
      rw [hend, hmake, hfirst] at hlast
      rcases hlast with hlast | hlast
      · exact List.mem_of_ne_of_mem (by decide) (List.mem_of_getLast? hlast.symm)
      · cases hlast

theorem SplitsAlike.keeps {d f : Text} (hf : NoSlash f) (h : SplitsAlike d f) :
    DotInside f ∧ KeepsName d f := by
  obtain ⟨fuel, path, alone, hpath, halone, hname, hext, ⟨hbase, -⟩, -⟩ := h
  obtain ⟨n, rfl⟩ := ofString_succ hpath
  cases (ofString_noSlash hf n).symm.trans halone
  obtain ⟨pre, g, htext, hg, hend⟩ := ofString_slash hf hpath
  have hparts : extractNameAndExt path.text = splitName g := by
    rw [htext, extractNameAndExt_slash hg]
  have hjoin : joinName (splitName g) = f := by
    rw [← hparts]
    exact hbase
  obtain ⟨hdot, hgf⟩ := eq_of_joinName hf hjoin (hparts.symm.trans (Prod.ext hname hext))
  refine ⟨hdot, n + 1, path, hpath, pre, ?_⟩
  rcases hgf with rfl | ⟨hnot, hgf⟩
  · exact htext.symm
  · exact absurd (hend hgf) hnot

/-- The name is kept where `NormalizePath` finds nothing to take away. -/
theorem keepsName_of_normal {d f : Text} (hf : NoSlash f)
    (h : eraseParent (makePath d ++ slash :: f) = none) : KeepsName d f := by
  have hmake := makePath_slash d hf
  have hslashes : backslash ∉ makePath d ++ slash :: f := by
    rw [← hmake]
    exact backslash_notMem_makePath _
  refine ⟨1, ⟨_, hslashes, h⟩, ?_, List.suffix_append _ _⟩
  rw [ofString]
  simp only [hmake]
  exact normalize_text ⟨_, hslashes, h⟩ 0

/-- No parent directory begins in a text and ends in a name behind it. -/
theorem isPrefixOf_append_slash {text : Text} (h : text ≠ []) (f : Text) :
    (Text.lit "/..").isPrefixOf (text ++ slash :: f) = (Text.lit "/..").isPrefixOf text := by
  have hlit : Text.lit "/.." = [slash, dot, dot] := by decide
  have hne : (dot == slash) = false := by decide
  rw [hlit]
  match text, h with
  | [a], _ => simp [List.isPrefixOf, hne]
  | [a, b], _ => simp [List.isPrefixOf, hne]
  | a :: b :: c :: text, _ => rfl

theorem isPrefixOf_drop_name {f : Text} (hf : NoSlash f)
    (hdots : (Text.lit "..").isPrefixOf f = false) (i : ℕ) :
    (Text.lit "/..").isPrefixOf ((slash :: f).drop i) = false := by
  cases i with
  | zero => exact hdots
  | succ i =>
      rw [List.drop_succ_cons]
      cases hdrop : f.drop i with
      | nil => rfl
      | cons c rest =>
          have hc : c ∈ f := List.mem_of_mem_drop (hdrop ▸ List.mem_cons_self)
          have hne : (slash == c) = false :=
            beq_false_of_ne (ne_of_mem_of_not_mem hc hf.slash_notMem).symm
          exact congrArg (· && _) hne

theorem findParent_append_slash (text : Text) {f : Text} (hf : NoSlash f)
    (hdots : (Text.lit "..").isPrefixOf f = false) :
    findParent (text ++ slash :: f) = findParent text := by
  have hbehind : ((List.range (slash :: f).length).map (text.length + ·)).find? (fun i =>
      (Text.lit "/..").isPrefixOf ((text ++ slash :: f).drop i)) = none := by
    apply List.find?_eq_none.mpr
    intro i hi
    obtain ⟨j, -, rfl⟩ := List.mem_map.mp hi
    rw [List.drop_append, List.drop_eq_nil_of_le (by omega), List.nil_append,
      Nat.add_sub_cancel_left, isPrefixOf_drop_name hf hdots]
    decide
  rw [findParent, List.length_append, List.range_add, List.find?_append, hbehind, Option.or_none]
  apply List.find?_congr
  intro i hi
  have hlt : i < text.length := List.mem_range.mp hi
  rw [List.drop_append_of_le_length hlt.le]
  apply isPrefixOf_append_slash
  intro hnil
  exact absurd (List.drop_eq_nil_iff.mp hnil) (by omega)

/-- With a slash in the text, a search that finds none has been limited. -/
theorem rfindSlash_append {text : Text} {pos : ℕ} (hpos : pos < text.length)
    (h : rfindSlash text pos = none) (hslash : slash ∈ text) (f : Text) :
    rfindSlash (text ++ f) pos = none := by
  by_cases hzero : pos = 0
  · rw [rfindSlash, if_pos hzero] at h
    obtain ⟨i, hi⟩ := List.getElem?_of_mem hslash
    have hlt : i < text.length := (List.getElem?_eq_some_iff.mp hi).1
    have hnone := List.find?_eq_none.mp h i (List.mem_reverse.mpr (List.mem_range.mpr hlt))
    exact absurd (decide_eq_true hi) hnone
  · rw [rfindSlash, if_neg hzero] at h ⊢
    rw [← h]
    apply List.find?_congr
    intro i hi
    have hlt : i < pos := List.mem_range.mp (List.mem_reverse.mp hi)
    rw [List.getElem?_append_left (hlt.trans hpos)]

/-- A path as a directory keeps every name that does not begin with two dots. -/
theorem keepsName_of_path (d : Path) {f : Text} (hf : NoSlash f)
    (hdots : (Text.lit "..").isPrefixOf f = false) : KeepsName d.text f := by
  apply keepsName_of_normal hf
  rw [makePath_eq_self d.slashes, FileSystem.eraseParent, findParent_append_slash _ hf hdots]
  have hnormal := d.normal
  rw [FileSystem.eraseParent] at hnormal
  cases hpos : findParent d.text with
  | none => rfl
  | some pos =>
      rw [hpos, Option.bind_some, Option.map_eq_none_iff] at hnormal
      rw [Option.bind_some, Option.map_eq_none_iff]
      have hlt : pos < d.text.length := List.mem_range.mp (List.mem_of_find?_eq_some hpos)
      exact rfindSlash_append hlt hnormal (findParent_mem hpos) _

theorem splitsAlike_iff (d f : Text) (hf : NoSlash f) :
    SplitsAlike d f ↔ DotInside f ∧ KeepsName d f := by
  refine ⟨SplitsAlike.keeps hf, ?_⟩
  rintro ⟨hdot, fuel, path, hpath, pre, hpre⟩
  obtain ⟨n, rfl⟩ := ofString_succ hpath
  exact ⟨n + 1, path, _, hpath, ofString_noSlash hf n, .of_keeps hf hdot hpre.symm⟩

theorem splitsAlike_iff_tar :
    NoSlash (Text.lit "c.tar.gz") ∧
      (SplitsAlike (Text.lit "a.b") (Text.lit "c.tar.gz") ↔
        DotInside (Text.lit "c.tar.gz") ∧ KeepsName (Text.lit "a.b") (Text.lit "c.tar.gz")) :=
  ⟨by decide, splitsAlike_iff _ _ (by decide)⟩

/-- The name `.bashrc` is an extension, and no extension behind a directory. -/
theorem not_splitsAlike : ¬∀ d f, NoSlash f → SplitsAlike d f := by
  intro hclaim
  have hnone : NoSlash (Text.lit ".bashrc") := by decide
  obtain ⟨hdot, -⟩ := (hclaim (Text.lit "home") _ hnone).keeps hnone
  exact Nat.lt_irrefl 0 (hdot 0 (by decide)).1

end Path

end SRCommon
