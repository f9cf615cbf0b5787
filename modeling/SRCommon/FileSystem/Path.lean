import SRCommon.Lib.ByteText

/-!
# Paths

`Path` keeps the text that `FileSystem::NormalizePath` makes of a text: slashes
between the names, and no `/..` behind a directory. A normal text is kept as it is.
-/

namespace SRCommon

namespace FileSystem

def slash : UInt8 := Text.ch '/'

def backslash : UInt8 := 92

/-- `StringUtils::MakePath`. -/
def makePath (str : Text) : Text := str.map fun c => if c = backslash then slash else c

/-- `path.find("/..")`. -/
def findParent (path : Text) : Option ℕ :=
  (List.range path.length).find? fun i => (Text.lit "/..").isPrefixOf (path.drop i)

/-- `path.rfind('/', pos - 1)`, where the position in front of the first one is `npos`. -/
def rfindSlash (path : Text) (pos : ℕ) : Option ℕ :=
  (List.range (if pos = 0 then path.length else pos)).reverse.find? fun i => path[i]? = some slash

/-- `path.erase(splash + 1, (pos - splash) + 3)`, with the difference computed in `size_t`. -/
def eraseBehind (path : Text) (splash pos : ℕ) : Text :=
  path.take (splash + 1) ++
    path.drop (splash + 1 + (UInt64.ofNat pos - UInt64.ofNat splash + 3).toNat)

/-- A round of the loop of `NormalizePath`, `none` where the loop is left. -/
def eraseParent (path : Text) : Option Text :=
  (findParent path).bind fun pos => (rfindSlash path pos).map fun splash =>
    eraseBehind path splash pos

theorem backslash_notMem_makePath (str : Text) : backslash ∉ makePath str := by
  intro h
  obtain ⟨c, -, hc⟩ := List.mem_map.mp h
  split at hc
  · cases hc
  · contradiction

theorem makePath_eq_self {str : Text} (h : backslash ∉ str) : makePath str = str := by
  refine (List.map_congr_left fun c hc => ?_).trans (List.map_id str)
  exact if_neg (ne_of_mem_of_not_mem hc h)

theorem notMem_of_eraseParent {path path' : Text} {c : UInt8} (hc : c ∉ path)
    (h : eraseParent path = some path') : c ∉ path' := by
  obtain ⟨pos, -, h⟩ := Option.bind_eq_some_iff.mp h
  obtain ⟨splash, -, rfl⟩ := Option.map_eq_some_iff.mp h
  intro hmem
  rcases List.mem_append.mp hmem with hmem | hmem
  · exact hc (List.mem_of_mem_take hmem)
  · exact hc (List.mem_of_mem_drop hmem)

end FileSystem

open FileSystem

/-- The other fields are computed from the text. -/
@[ext] structure Path where
  text : Text
  slashes : backslash ∉ text
  normal : eraseParent text = none

namespace Path

/-- `Path()`. -/
def empty : Path := ⟨[], by decide, by decide⟩

/-- The loop of `NormalizePath`, which does not end for every text. -/
def normalize : ℕ → (path : Text) → backslash ∉ path → Option Path
  | 0, _, _ => none
  | fuel + 1, path, hslashes =>
      match h : eraseParent path with
      | none => some ⟨path, hslashes, h⟩
      | some path' => normalize fuel path' (notMem_of_eraseParent hslashes h)

/-- `Path(std::string path)`. -/
def ofString (fuel : ℕ) (path : Text) : Option Path :=
  normalize fuel (makePath path) (backslash_notMem_makePath path)

theorem normalize_text (p : Path) (fuel : ℕ) : normalize (fuel + 1) p.text p.slashes = some p := by
  rw [normalize]
  split
  · rfl
  · rename_i h
    cases p.normal.symm.trans h

theorem ofString_text (p : Path) (fuel : ℕ) : ofString (fuel + 1) p.text = some p := by
  rw [ofString]
  simp only [makePath_eq_self p.slashes]
  exact p.normalize_text fuel

example : (ofString 9 (Text.lit "a\\b/../c")).map Path.text = some (Text.lit "a/c") := by decide

end Path

end SRCommon
