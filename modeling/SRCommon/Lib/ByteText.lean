import Mathlib.Data.Int.Notation
import Mathlib.Data.List.TakeWhile
import Mathlib.Tactic.Positivity

/-!
# Byte strings, decimal numbers and lines

The part of the C++ string library that text formats rest on: printing and
scanning decimal numbers, cutting a string after a separator, and reading a
text line by line. A byte string is a list of bytes.
-/

abbrev Text := List UInt8

namespace Text

def ch (c : Char) : UInt8 := c.toNat.toUInt8

/-- The bytes of an ASCII literal. -/
def lit (s : String) : Text := s.toList.map ch

/-- What a `char*` to the text shows: everything before the first zero byte. -/
def cstr (t : Text) : Text := t.takeWhile (· ≠ 0)

theorem cstr_eq_self {t : Text} (h : 0 ∉ t) : cstr t = t := by
  rw [cstr, List.takeWhile_eq_self_iff]
  intro c hc
  simpa using ne_of_mem_of_not_mem hc h

theorem zero_notMem_cstr (t : Text) : 0 ∉ cstr t := by
  intro h
  simpa using List.mem_takeWhile_imp h

/-! ## Cutting after a separator -/

/-- `t.substr(t.find_first_of(c) + 1)`. Without a separator the position is
`npos`, and `npos + 1` is zero. -/
def after (c : UInt8) (t : Text) : Text :=
  t.drop (match t.idxOf? c with
    | some i => i + 1
    | none => 0)

theorem after_append {c : UInt8} {pre : Text} (h : c ∉ pre) (rest : Text) :
    after c (pre ++ c :: rest) = rest := by
  have hidx : (pre ++ c :: rest).idxOf? c = some pre.length := by
    rw [List.idxOf?, List.findIdx?_eq_some_iff_getElem]
    refine ⟨by simp, by simp, ?_⟩
    intro j hj
    rw [List.getElem_append_left hj]
    have hne : pre[j] ≠ c := ne_of_mem_of_not_mem (List.getElem_mem hj) h
    simpa using hne
  rw [after, hidx]
  simp

/-! ## Decimal numbers -/

def isDigit (c : UInt8) : Bool := 48 ≤ c && c ≤ 57

/-- `isspace` in the C locale. -/
def isSpace (c : UInt8) : Bool := c = 32 || (9 ≤ c && c ≤ 13)

/-- `std::to_string` of an unsigned number. -/
def natText (n : ℕ) : Text := (Nat.toDigits 10 n).map ch

/-- `std::to_string` of a signed number. -/
def intText : ℤ → Text
  | .ofNat n => natText n
  | .negSucc n => ch '-' :: natText (n + 1)

def digitsValue (t : Text) : ℕ := t.foldl (fun n c => 10 * n + (c.toNat - 48)) 0

/-- The number a text starts with, if it starts with a digit. -/
def scanNat (t : Text) : Option ℕ :=
  match t.takeWhile isDigit with
  | [] => none
  | ds => some (digitsValue ds)

/-- `strtol` in base ten before any range check: blanks, an optional sign and
digits, whatever follows them. -/
def scanInt (t : Text) : Option ℤ :=
  match t.dropWhile isSpace with
  | [] => none
  | c :: rest =>
      if c = ch '-' then (scanNat rest).map fun n => -(n : ℤ)
      else if c = ch '+' then (scanNat rest).map Int.ofNat
      else (scanNat (c :: rest)).map Int.ofNat

theorem toNat_ch_of_isDigit {c : Char} (hc : c.isDigit = true) :
    (ch c).toNat = c.toNat ∧ 48 ≤ c.toNat ∧ c.toNat ≤ 57 := by
  simp only [Char.isDigit, Bool.and_eq_true, decide_eq_true_eq] at hc
  have hlo : 48 ≤ c.toNat := UInt32.le_iff_toNat_le.mp hc.1
  have hhi : c.toNat ≤ 57 := UInt32.le_iff_toNat_le.mp hc.2
  refine ⟨?_, hlo, hhi⟩
  simp only [ch, Nat.toUInt8, UInt8.toNat_ofNat']
  omega

theorem isDigit_ch {c : Char} (hc : c.isDigit = true) : isDigit (ch c) = true := by
  obtain ⟨heq, hlo, hhi⟩ := toNat_ch_of_isDigit hc
  simp only [isDigit, Bool.and_eq_true, decide_eq_true_eq, UInt8.le_iff_toNat_le, heq]
  exact ⟨hlo, hhi⟩

theorem isDigit_of_mem_natText {n : ℕ} {c : UInt8} (hc : c ∈ natText n) :
    isDigit c = true := by
  obtain ⟨d, hd, rfl⟩ := List.mem_map.mp hc
  exact isDigit_ch (Nat.isDigit_of_mem_toDigits (by omega) (by omega) hd)

theorem natText_ne_nil (n : ℕ) : natText n ≠ [] := by
  simp [natText, Nat.toDigits_ne_nil]

theorem notMem_natText {n : ℕ} {c : UInt8} (hc : isDigit c = false) : c ∉ natText n := by
  intro h
  simp [isDigit_of_mem_natText h] at hc

theorem digitsValue_natText (n : ℕ) : digitsValue (natText n) = n := by
  have hfold : ∀ (l : List Char) (init : ℕ), (∀ c ∈ l, c.isDigit = true) →
      (l.map ch).foldl (fun n c => 10 * n + (c.toNat - 48)) init = Nat.ofDigitChars 10 l init := by
    intro l
    induction l with
    | nil => simp
    | cons c l ih =>
        intro init hl
        have hc := (toNat_ch_of_isDigit (hl c (by simp))).1
        rw [List.map_cons, List.foldl_cons, Nat.ofDigitChars_cons,
          ih _ fun d hd => hl d (List.mem_cons_of_mem c hd), hc]
        rfl
  rw [digitsValue, natText, hfold _ _ fun c hc =>
    Nat.isDigit_of_mem_toDigits (by omega) (by omega) hc]
  exact Nat.ofDigitChars_ten_toDigits

theorem digitsValue_append (a b : Text) :
    digitsValue (a ++ b) = digitsValue a * 10 ^ b.length + digitsValue b := by
  have hfold : ∀ (b : Text) (n : ℕ), b.foldl (fun n c => 10 * n + (c.toNat - 48)) n =
      n * 10 ^ b.length + digitsValue b := by
    intro b
    induction b with
    | nil => simp [digitsValue]
    | cons c b ih =>
        intro n
        have htens : 10 * n * 10 ^ b.length = n * 10 ^ (b.length + 1) := by
          rw [Nat.pow_succ, Nat.mul_comm 10 n, Nat.mul_assoc, Nat.mul_comm 10]
        rw [digitsValue, List.foldl_cons, List.foldl_cons, ih, ih, List.length_cons, Nat.add_mul,
          htens, Nat.mul_zero, Nat.zero_add, Nat.add_assoc]
  rw [digitsValue, List.foldl_append, hfold]
  rfl

/-- The digits that follow a printed number are read as if they were its own. -/
theorem scanNat_natText_append (n : ℕ) (rest : Text) :
    scanNat (natText n ++ rest) =
      some (n * 10 ^ (rest.takeWhile isDigit).length + digitsValue (rest.takeWhile isDigit)) := by
  have htake : (natText n ++ rest).takeWhile isDigit = natText n ++ rest.takeWhile isDigit :=
    List.takeWhile_append_of_pos fun c hc => isDigit_of_mem_natText hc
  have hvalue := digitsValue_append (natText n) (rest.takeWhile isDigit)
  rw [digitsValue_natText] at hvalue
  rw [scanNat, htake, ← hvalue]
  cases hn : natText n with
  | nil => exact absurd hn (natText_ne_nil n)
  | cons c ds => rfl

theorem takeWhile_isDigit_eq_nil {rest : Text} (h : ∀ c ∈ rest.head?, isDigit c = false) :
    rest.takeWhile isDigit = [] := by
  cases rest with
  | nil => rfl
  | cons c rest => simp [h c (by simp)]

theorem scanNat_natText (n : ℕ) {rest : Text} (h : ∀ c ∈ rest.head?, isDigit c = false) :
    scanNat (natText n ++ rest) = some n := by
  rw [scanNat_natText_append, takeWhile_isDigit_eq_nil h]
  simp [digitsValue]

theorem isSpace_of_isDigit {c : UInt8} (hc : isDigit c = true) : isSpace c = false := by
  simp only [isDigit, isSpace, Bool.and_eq_true, decide_eq_true_eq, Bool.or_eq_false_iff,
    Bool.and_eq_false_iff, decide_eq_false_iff_not, UInt8.le_iff_toNat_le] at *
  have hlo : 48 ≤ c.toNat := hc.1
  refine ⟨?_, .inr ?_⟩
  · rintro rfl
    exact absurd hlo (by decide)
  · show ¬ c.toNat ≤ 13
    omega

theorem scanInt_natText_append (n : ℕ) (rest : Text) :
    scanInt (natText n ++ rest) = (scanNat (natText n ++ rest)).map Int.ofNat := by
  cases hn : natText n with
  | nil => exact absurd hn (natText_ne_nil n)
  | cons c ds =>
      have hc : isDigit c = true := isDigit_of_mem_natText (n := n) (by simp [hn])
      have hminus : c ≠ ch '-' := fun heq => absurd (heq ▸ hc) (by decide)
      have hplus : c ≠ ch '+' := fun heq => absurd (heq ▸ hc) (by decide)
      rw [List.cons_append]
      simp [scanInt, isSpace_of_isDigit hc, hminus, hplus]

/-- Scanning a printed natural number stops at the first byte that is no digit. -/
theorem scanInt_natText (n : ℕ) {rest : Text} (h : ∀ c ∈ rest.head?, isDigit c = false) :
    scanInt (natText n ++ rest) = some (n : ℤ) := by
  rw [scanInt_natText_append, scanNat_natText n h]
  rfl

theorem scanInt_minus (rest : Text) :
    scanInt (ch '-' :: rest) = (scanNat rest).map fun n : ℕ => -(n : ℤ) := by
  have hspace : isSpace (ch '-') = false := by decide
  simp only [scanInt, List.dropWhile_cons, hspace, Bool.false_eq_true, if_false, if_true]
  cases scanNat rest <;> rfl

theorem scanInt_intText (i : ℤ) {rest : Text} (h : ∀ c ∈ rest.head?, isDigit c = false) :
    scanInt (intText i ++ rest) = some i := by
  cases i with
  | ofNat n => exact scanInt_natText n h
  | negSucc n =>
      rw [intText, List.cons_append, scanInt_minus, scanNat_natText (n + 1) h]
      simp [Int.negSucc_eq]

/-- `std::stoi` and `std::stoll`: the scanned number if it fits the signed
type of the given width, an exception otherwise. -/
def sto (width : ℕ) (t : Text) : Option ℤ :=
  (scanInt t).filter fun i => decide (-2 ^ (width - 1) ≤ i ∧ i < 2 ^ (width - 1))

theorem sto_natText {width n : ℕ} (hn : n < 2 ^ (width - 1)) {rest : Text}
    (h : ∀ c ∈ rest.head?, isDigit c = false) : sto width (natText n ++ rest) = some (n : ℤ) := by
  have hhi : (n : ℤ) < 2 ^ (width - 1) := by exact_mod_cast hn
  have hlo : -2 ^ (width - 1) ≤ (n : ℤ) := by
    have hpos : (0 : ℤ) < 2 ^ (width - 1) := by positivity
    omega
  simp [sto, scanInt_natText n h, hlo, hhi]

theorem sto_intText {width : ℕ} {i : ℤ} (hlo : -2 ^ (width - 1) ≤ i) (hhi : i < 2 ^ (width - 1))
    {rest : Text} (h : ∀ c ∈ rest.head?, isDigit c = false) :
    sto width (intText i ++ rest) = some i := by
  simp [sto, scanInt_intText i h, hlo, hhi]

/-! ## Lines -/

/-- Every line followed by a line break. -/
def unlines (ls : List Text) : Text := (ls.map fun l => l ++ [ch '\n']).flatten

@[simp] theorem unlines_nil : unlines [] = [] := rfl

@[simp] theorem unlines_cons (l : Text) (ls : List Text) :
    unlines (l :: ls) = l ++ ch '\n' :: unlines ls := by simp [unlines]

@[simp] theorem unlines_append (ls ms : List Text) :
    unlines (ls ++ ms) = unlines ls ++ unlines ms := by simp [unlines]

/-- Repeated `std::getline` while the stream is good: the pieces between the
line breaks, the one after the last break included, be it empty. -/
def getlines (t : Text) : List Text := t.splitOn (ch '\n')

theorem getlines_unlines {ls : List Text} {last : Text} (h : ∀ l ∈ ls, ch '\n' ∉ l)
    (hlast : ch '\n' ∉ last) : getlines (unlines ls ++ last) = ls ++ [last] := by
  induction ls with
  | nil => simpa [getlines] using List.splitOn_eq_singleton hlast
  | cons l ls ih =>
      have htail := ih fun m hm => h m (List.mem_cons_of_mem l hm)
      have hl : ch '\n' ∉ l := h l List.mem_cons_self
      rw [getlines] at htail ⊢
      rw [unlines_cons, List.append_assoc, List.cons_append,
        List.splitOn_append_cons_self_of_not_mem hl, htail]
      rfl

end Text
