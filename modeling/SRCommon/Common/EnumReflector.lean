import Mathlib.Data.List.Nodup
import SRCommon.Common.HashManager

/-!
# Enumerations by their texts

`EnumReflector` reads the text between the parentheses of an enumeration. Names
are interned, and found again by their hashes. A failed assertion has no result,
nor has a sum that is too great for `int`.
-/

namespace SRCommon

structure Enumerator where
  name : StringHashInfo
  hashName : UInt64
  value : Int64

structure EnumReflector where
  values : List Enumerator

inductive EnumScanState where
  | start
  | ident
  | skip
  deriving DecidableEq

/-- The variables of the constructor. `ident` lies between `ident_start` and `body`, the values
are those up to `value_index`. -/
structure EnumScan where
  state : EnumScanState := .start
  ident : Text := []
  level : ℕ := 0
  values : List Enumerator := []
  table : HashManager

def isIdentChar (c : UInt8) : Bool :=
  (Text.ch 'A' ≤ c && c ≤ Text.ch 'Z') || (Text.ch 'a' ≤ c && c ≤ Text.ch 'z') ||
    (Text.ch '0' ≤ c && c ≤ Text.ch '9') || c = Text.ch '_'

namespace EnumScan

variable (values : List Int64) (this : EnumScan)

/-- The end of an identifier. -/
def record : Option EnumScan :=
  (values[this.values.length]?).bind fun value =>
    if this.values.length + 1 < 2 ^ 31 then
      let (info, table) := this.table.getOrAddInfoString this.ident
      some { this with
        state := .skip
        values := this.values ++ [{ name := info, hashName := info.hash, value }]
        table }
    else none

/-- A character in `state_skip`, and whether the constructor returns there. -/
def skip (c : UInt8) : Option (Bool × EnumScan) :=
  if c = Text.ch '(' then
    if this.level + 1 < 2 ^ 31 then some (false, { this with level := this.level + 1 }) else none
  else if c = Text.ch ')' then
    if this.level = 0 then
      if this.values.length = values.length then some (true, this) else none
    else some (false, { this with level := this.level - 1 })
  else if this.level = 0 ∧ c = Text.ch ',' then some (false, { this with state := .start })
  else some (false, this)

/-- A character behind an identifier is looked at once more in `state_skip`. -/
def read (c : UInt8) : Option (Bool × EnumScan) :=
  match this.state with
  | .start =>
      some (false, if isIdentChar c then { this with state := .ident, ident := [c] } else this)
  | .ident =>
      if isIdentChar c then some (false, { this with ident := this.ident ++ [c] })
      else (this.record values).bind fun this => this.skip values c
  | .skip => this.skip values c

/-- The loop over a text, and what it leaves of the text. -/
def scan : EnumScan → Text → Option (EnumScan × Text)
  | _, [] => none
  | this, c :: body =>
      if c = 0 then none
      else (this.read values c).bind fun r => if r.1 then some (r.2, body) else scan r.2 body

end EnumScan

namespace EnumReflector

/-- The constructor. -/
def ofBody (table : HashManager) (values : List Int64) (body : Text) :
    Option (EnumReflector × HashManager × Text) :=
  match body with
  | [] => none
  | c :: body =>
      if c = Text.ch '(' then
        (EnumScan.scan values { table } body).map fun r =>
          ({ values := r.1.values }, r.1.table, r.2)
      else none

variable (this : EnumReflector)

def names : List StringHashInfo := this.values.map Enumerator.name

def toStringInternal (value : Int64) : Option StringHashInfo :=
  (this.values.find? fun enumerator => enumerator.value = value).map Enumerator.name

def fromStringInternal (name : StringHashInfo) : Option Int64 :=
  (this.values.find? fun enumerator => enumerator.hashName = name.hash).map Enumerator.value

def getIndexInternal (value : Int64) : Option Int64 :=
  (this.values.findIdx? fun enumerator => enumerator.value = value).map Int64.ofNat

def atInternal (index : Int64) : Option Int64 :=
  (this.values[index.toUInt64.toNat]?).map Enumerator.value

/-- A value without a name has the empty one. -/
def toStringAtom (value : Int64) : StringHashInfo :=
  (this.toStringInternal value).getD { data := [], hash := hashArrayRepresentation [], size := 0 }

def fromString (name : StringHashInfo) : Int64 := (this.fromStringInternal name).getD 0

def getIndex (value : Int64) : Int64 := (this.getIndexInternal value).getD (-1)

def atAsInt (index : Int64) : Int64 := (this.atInternal index).getD 0

end EnumReflector

/-! ## Texts of enumerations -/

/-- Balanced parentheses, nested at most so deep. Commas stand between parentheses. -/
inductive BalancedText : Bool → ℕ → Text → Prop where
  | nil {inside : Bool} {depth : ℕ} : BalancedText inside depth []
  | char {inside : Bool} {depth : ℕ} {c : UInt8} {text : Text} (hzero : c ≠ 0)
      (hopen : c ≠ Text.ch '(') (hclose : c ≠ Text.ch ')')
      (hcomma : inside = false → c ≠ Text.ch ',') (h : BalancedText inside depth text) :
      BalancedText inside depth (c :: text)
  | parentheses {inside : Bool} {depth : ℕ} {inner text : Text}
      (hinner : BalancedText true depth inner) (h : BalancedText inside (depth + 1) text) :
      BalancedText inside (depth + 1) (Text.ch '(' :: (inner ++ Text.ch ')' :: text))

/-- An identifier between blanks, and what it is set to. -/
structure EnumEntry where
  before : Text := []
  ident : Text
  behind : Text := []
  init : Option Text := none

namespace EnumEntry

variable (this : EnumEntry)

def text : Text :=
  this.before ++ this.ident ++ this.behind ++
    this.init.elim [] fun expression => Text.ch '=' :: expression

structure Valid : Prop where
  before : ∀ c ∈ this.before, Text.isSpace c
  ident : ∀ c ∈ this.ident, isIdentChar c
  ident_ne_nil : this.ident ≠ []
  behind : ∀ c ∈ this.behind, Text.isSpace c
  init : ∀ expression ∈ this.init, BalancedText false (2 ^ 31 - 1) expression

/-- The text of an enumeration with a first entry and others. -/
def bodyText (first : EnumEntry) (others : List EnumEntry) : Text :=
  Text.ch '(' ::
    (first.text ++ others.flatMap (fun entry => Text.ch ',' :: entry.text) ++ [Text.ch ')'])

end EnumEntry

theorem BalancedText.append {inside : Bool} {depth : ℕ} {a b : Text}
    (ha : BalancedText inside depth a) (hb : BalancedText inside depth b) :
    BalancedText inside depth (a ++ b) := by
  induction ha with
  | nil => exact hb
  | char hzero hopen hclose hcomma _ ih => exact .char hzero hopen hclose hcomma (ih hb)
  | @parentheses inside depth inner text hinner _ _ ih =>
      rw [List.cons_append, List.append_assoc, List.cons_append]
      exact .parentheses hinner (ih hb)

theorem toNat_of_isSpace {c : UInt8} (h : Text.isSpace c) :
    c.toNat = 32 ∨ 9 ≤ c.toNat ∧ c.toNat ≤ 13 := by
  simp only [Text.isSpace, Bool.or_eq_true, decide_eq_true_eq, Bool.and_eq_true,
    UInt8.le_iff_toNat_le, ← UInt8.toNat_inj] at h
  exact h

theorem not_isIdentChar_of_isSpace {c : UInt8} (h : Text.isSpace c) : isIdentChar c = false := by
  have hc := toNat_of_isSpace h
  have hA : (Text.ch 'A').toNat = 65 := rfl
  have ha : (Text.ch 'a').toNat = 97 := rfl
  have h0 : (Text.ch '0').toNat = 48 := rfl
  have hline : (Text.ch '_').toNat = 95 := rfl
  simp only [isIdentChar, Bool.or_eq_false_iff, Bool.and_eq_false_iff, decide_eq_false_iff_not,
    UInt8.le_iff_toNat_le, ← UInt8.toNat_inj]
  omega

theorem balancedText_of_isSpace {inside : Bool} {depth : ℕ} {text : Text}
    (h : ∀ c ∈ text, Text.isSpace c) : BalancedText inside depth text := by
  have hspace (c d : UInt8) (hc : Text.isSpace c) (hd : d.toNat < 9 ∨ 32 < d.toNat) : c ≠ d := by
    rintro rfl
    have hnat := toNat_of_isSpace hc
    omega
  induction text with
  | nil => exact .nil
  | cons c text ih =>
      rw [List.forall_mem_cons] at h
      exact .char (hspace c 0 h.1 (by decide)) (hspace c _ h.1 (by decide))
        (hspace c _ h.1 (by decide)) (fun _ => hspace c _ h.1 (by decide)) (ih h.2)

namespace EnumScan

variable {values : List Int64} {this : EnumScan} {rest : Text}

theorem scan_cons {c : UInt8} {r : EnumScan} (hc : c ≠ 0)
    (h : this.read values c = some (false, r)) :
    scan values this (c :: rest) = scan values r rest := by
  rw [scan, if_neg hc, h]
  rfl

theorem scan_before {before : Text} (hbefore : ∀ c ∈ before, Text.isSpace c)
    (hstate : this.state = .start) :
    scan values this (before ++ rest) = scan values this rest := by
  induction before with
  | nil => rfl
  | cons c before ih =>
      rw [List.forall_mem_cons] at hbefore
      have hread : this.read values c = some (false, this) := by
        rw [read, hstate, not_isIdentChar_of_isSpace hbefore.1]
        rfl
      have hzero : c ≠ 0 := by
        rintro rfl
        exact absurd hbefore.1 (by decide)
      rw [List.cons_append, scan_cons hzero hread, ih hbefore.2]

theorem scan_identChars {ident : Text} (hident : ∀ c ∈ ident, isIdentChar c)
    (hstate : this.state = .ident) :
    scan values this (ident ++ rest) =
      scan values { this with ident := this.ident ++ ident } rest := by
  induction ident generalizing this with
  | nil => rw [List.append_nil, List.nil_append]
  | cons c ident ih =>
      rw [List.forall_mem_cons] at hident
      have hread : this.read values c =
          some (false, { this with ident := this.ident ++ [c] }) := by
        rw [read, hstate]
        exact if_pos hident.1
      have hzero : c ≠ 0 := by
        rintro rfl
        exact absurd hident.1 (by decide)
      have hnext : EnumScan.state { this with ident := this.ident ++ [c] } = .ident := hstate
      rw [List.cons_append, scan_cons hzero hread, ih hident.2 hnext]
      dsimp only
      rw [List.append_assoc, List.singleton_append]

theorem scan_ident {ident : Text} (hident : ∀ c ∈ ident, isIdentChar c) (hne : ident ≠ [])
    (hstate : this.state = .start) :
    scan values this (ident ++ rest) = scan values { this with state := .ident, ident } rest := by
  obtain ⟨c, ident, rfl⟩ := List.exists_cons_of_ne_nil hne
  rw [List.forall_mem_cons] at hident
  have hread : this.read values c = some (false, { this with state := .ident, ident := [c] }) := by
    rw [read, hstate]
    exact congrArg (fun s => some (false, s)) (if_pos hident.1)
  have hzero : c ≠ 0 := by
    rintro rfl
    exact absurd hident.1 (by decide)
  rw [List.cons_append, scan_cons hzero hread, scan_identChars hident.2 rfl]
  rfl

theorem read_skip {c : UInt8} (hstate : this.state = .skip) :
    this.read values c = this.skip values c := by
  rw [read, hstate]

/-- The identifier is recorded, and the text goes on in `state_skip`. -/
theorem scan_record {c : UInt8} {r : EnumScan} (hstate : this.state = .ident)
    (hc : isIdentChar c = false) (h : this.record values = some r) (hr : r.state = .skip) :
    scan values this (c :: rest) = scan values r (c :: rest) := by
  have hread : this.read values c = r.read values c := by
    rw [read_skip hr, read, hstate]
    dsimp only
    rw [hc, if_neg Bool.false_ne_true, h, Option.bind_some]
  rw [scan, scan, hread]

/-- An expression is passed over as a whole. -/
theorem scan_balancedText {inside : Bool} {depth : ℕ} {text : Text}
    (htext : BalancedText inside depth text) (hstate : this.state = .skip)
    (hdepth : this.level + depth < 2 ^ 31) (hinside : inside = true → 0 < this.level) :
    scan values this (text ++ rest) = scan values this rest := by
  induction htext generalizing this rest with
  | nil => rfl
  | @char inside depth c text hzero hopen hclose hcomma _ ih =>
      have hskip : ¬(this.level = 0 ∧ c = Text.ch ',') := by
        rintro ⟨hlevel, rfl⟩
        cases inside with
        | false => exact hcomma rfl rfl
        | true => exact absurd (hinside rfl) (by omega)
      have hread : this.read values c = some (false, this) := by
        rw [read_skip hstate, skip, if_neg hopen, if_neg hclose, if_neg hskip]
      rw [List.cons_append, scan_cons hzero hread, ih hstate hdepth hinside]
  | @parentheses inside depth inner text _ _ ihinner ih =>
      have hopen : this.read values (Text.ch '(') =
          some (false, { this with level := this.level + 1 }) := by
        rw [read_skip hstate, skip, if_pos rfl, if_pos (by omega)]
      have hinner : EnumScan.state { this with level := this.level + 1 } = .skip := hstate
      have hclose : EnumScan.read values { this with level := this.level + 1 } (Text.ch ')') =
          some (false, this) := by
        rw [read_skip hinner, skip, if_neg (by decide), if_pos rfl, if_neg (Nat.succ_ne_zero _)]
        rfl
      rw [List.cons_append, List.append_assoc, List.cons_append, scan_cons (by decide) hopen,
        ihinner hinner (by dsimp only; omega) fun _ => Nat.succ_pos _,
        scan_cons (by decide) hclose, ih hstate hdepth hinside]

/-- The state once an identifier is recorded. -/
def recorded (this : EnumScan) (ident : Text) (value : Int64) : EnumScan :=
  let (info, table) := this.table.getOrAddInfoString ident
  { state := .skip, ident, level := this.level,
    values := this.values ++ [{ name := info, hashName := info.hash, value }], table }

/-- An entry is recorded and passed over, whatever ends it. -/
theorem scan_entry {entry : EnumEntry} (hentry : entry.Valid) (hstate : this.state = .start)
    (hlevel : this.level = 0) {value : Int64} (hvalue : values[this.values.length]? = some value)
    (hlength : this.values.length + 1 < 2 ^ 31) {c : UInt8} (hc : isIdentChar c = false) :
    scan values this (entry.text ++ c :: rest) =
      scan values (this.recorded entry.ident value) (c :: rest) := by
  let tail : Text :=
    entry.behind ++ entry.init.elim [] fun expression => Text.ch '=' :: expression
  have htext : entry.text ++ c :: rest =
      entry.before ++ (entry.ident ++ (tail ++ c :: rest)) := by
    simp only [EnumEntry.text, tail, List.append_assoc]
  have htail : BalancedText false (2 ^ 31 - 1) tail := by
    apply (balancedText_of_isSpace hentry.behind).append
    cases hinit : entry.init with
    | none => exact .nil
    | some expression =>
        exact .char (by decide) (by decide) (by decide) (fun _ => by decide)
          (hentry.init expression hinit)
  have hhead : ∃ d rest', tail ++ c :: rest = d :: rest' ∧ isIdentChar d = false := by
    cases hbehind : entry.behind with
    | nil =>
        cases hinit : entry.init with
        | none => exact ⟨c, rest, by simp [tail, hbehind, hinit], hc⟩
        | some expression =>
            exact ⟨Text.ch '=', expression ++ c :: rest, by simp [tail, hbehind, hinit], by decide⟩
    | cons d behind =>
        have hd : Text.isSpace d := hentry.behind d (by rw [hbehind]; exact List.mem_cons_self)
        let rest' := behind ++
          ((entry.init.elim [] fun expression => Text.ch '=' :: expression) ++ c :: rest)
        exact ⟨d, rest', by simp [tail, rest', hbehind], not_isIdentChar_of_isSpace hd⟩
  obtain ⟨d, rest', heq, hd⟩ := hhead
  have hrecord : record values { this with state := .ident, ident := entry.ident } =
      some (this.recorded entry.ident value) := by
    rw [record]
    dsimp only
    rw [hvalue, Option.bind_some, if_pos hlength]
    rfl
  have hstop : (this.recorded entry.ident value).level + (2 ^ 31 - 1) < 2 ^ 31 := by
    change this.level + _ < _
    omega
  rw [htext, scan_before hentry.before hstate,
    scan_ident hentry.ident hentry.ident_ne_nil hstate, heq, scan_record rfl hd hrecord rfl, ← heq,
    scan_balancedText htail rfl hstop nofun]

end EnumScan

/-! ## Names and values -/

def HashManager.infoOf (str : Text) : StringHashInfo where
  data := str
  hash := hashArrayRepresentation str
  size := str.length

/-- Under the hash of a text there is nothing but the text. -/
def HashManager.Free (m : HashManager) (str : Text) : Prop :=
  ∀ info, m.strings (hashArrayRepresentation str) = some info → info = infoOf str

theorem HashManager.Free.getOrAddInfoString {m : HashManager} {str : Text} (h : m.Free str) :
    (m.getOrAddInfoString str).1 = infoOf str := by
  rw [HashManager.getOrAddInfoString]
  cases hinfo : m.strings (hashArrayRepresentation str) with
  | none => rfl
  | some info => exact h info hinfo

theorem HashManager.Free.other {m : HashManager} {str other : Text} (h : m.Free other)
    (hsame : hashArrayRepresentation other = hashArrayRepresentation str → other = str) :
    (m.getOrAddInfoString str).2.Free other := by
  rw [HashManager.getOrAddInfoString]
  cases hinfo : m.strings (hashArrayRepresentation str) with
  | some info => exact h
  | none =>
      intro info hstrings
      change Function.update m.strings _ _ _ = _ at hstrings
      by_cases heq : hashArrayRepresentation other = hashArrayRepresentation str
      · obtain rfl := hsame heq
        rw [Function.update_self] at hstrings
        simpa [hinfo, infoOf] using (Option.some.inj hstrings).symm
      · rw [Function.update_of_ne heq] at hstrings
        exact h info hstrings

/-- Different names have different hashes, and the table holds nothing else under these. -/
structure HashManager.Separates (m : HashManager) (names : List Text) : Prop where
  free : ∀ name ∈ names, m.Free name
  eq_of_hash_eq : ∀ name ∈ names, ∀ other ∈ names,
    hashArrayRepresentation name = hashArrayRepresentation other → name = other

theorem HashManager.Separates.tail {m : HashManager} {name : Text} {names : List Text}
    (h : m.Separates (name :: names)) : (m.getOrAddInfoString name).2.Separates names where
  free other hother := by
    apply (h.free other (List.mem_cons_of_mem name hother)).other
    exact h.eq_of_hash_eq other (List.mem_cons_of_mem name hother) name List.mem_cons_self
  eq_of_hash_eq other hother another hanother :=
    h.eq_of_hash_eq other (List.mem_cons_of_mem name hother) another
      (List.mem_cons_of_mem name hanother)

/-- What is recorded of a name and its value. -/
def Enumerator.ofName (name : Text) (value : Int64) : Enumerator where
  name := HashManager.infoOf name
  hashName := hashArrayRepresentation name
  value := value

theorem Enumerator.map_data {names : List Text} {values : List Int64}
    (h : names.length = values.length) :
    (List.zipWith ofName names values).map (fun e => e.name.data) = names := by
  rw [List.map_zipWith]
  exact (List.map_uncurry_zip_eq_zipWith ..).symm.trans (List.map_fst_zip h.le)

theorem Enumerator.map_value {names : List Text} {values : List Int64}
    (h : names.length = values.length) :
    (List.zipWith ofName names values).map Enumerator.value = values := by
  rw [List.map_zipWith]
  exact (List.map_uncurry_zip_eq_zipWith ..).symm.trans (List.map_snd_zip h.ge)

namespace EnumScan

variable {values : List Int64} {this : EnumScan} {rest : Text}

theorem values_recorded {ident : Text} (h : this.table.Free ident) (value : Int64) :
    (this.recorded ident value).values = this.values ++ [.ofName ident value] := by
  have hinfo := h.getOrAddInfoString
  rw [recorded]
  generalize this.table.getOrAddInfoString ident = r at hinfo
  obtain ⟨info, table⟩ := r
  obtain rfl : info = HashManager.infoOf ident := hinfo
  rfl

/-- The entries behind the first one, up to the last parenthesis. -/
theorem scan_others {others : List EnumEntry} {before vs : List Int64}
    (hothers : ∀ entry ∈ others, entry.Valid) (hstate : this.state = .skip)
    (hlevel : this.level = 0) (hvalues : values = before ++ vs)
    (hbefore : this.values.length = before.length) (hlength : vs.length = others.length)
    (hcount : values.length < 2 ^ 31)
    (hnames : this.table.Separates (others.map EnumEntry.ident)) :
    ∃ r, scan values this (others.flatMap (fun entry => Text.ch ',' :: entry.text) ++
        Text.ch ')' :: rest) = some (r, rest) ∧
      r.values = this.values ++ List.zipWith Enumerator.ofName (others.map EnumEntry.ident) vs := by
  induction others generalizing this before vs with
  | nil =>
      obtain rfl := List.eq_nil_of_length_eq_zero hlength
      have hend : this.read values (Text.ch ')') = some (true, this) := by
        have hall : this.values.length = values.length := by
          rw [hvalues, List.append_nil, hbefore]
        rw [read_skip hstate, skip, if_neg (by decide), if_pos rfl, if_pos hlevel, if_pos hall]
      refine ⟨this, ?_, (List.append_nil _).symm⟩
      rw [List.flatMap_nil, List.nil_append, scan, if_neg (by decide), hend]
      rfl
  | cons entry others ih =>
      obtain ⟨v, vs, rfl⟩ := List.exists_cons_of_length_eq_add_one hlength
      rw [List.forall_mem_cons] at hothers
      rw [List.map_cons] at hnames
      have hvalue : values[this.values.length]? = some v := by
        rw [hvalues, hbefore, List.getElem?_append_right le_rfl, Nat.sub_self]
        rfl
      have hroom : this.values.length + 1 < 2 ^ 31 := by
        rw [hvalues, List.length_append, List.length_cons] at hcount
        omega
      have hcomma : this.read values (Text.ch ',') =
          some (false, { this with state := .start }) := by
        simp [read_skip hstate, skip, hlevel, Text.ch]
      have hnext : ∃ c rest', (others.flatMap fun entry => Text.ch ',' :: entry.text) ++
          Text.ch ')' :: rest = c :: rest' ∧ isIdentChar c = false := by
        cases others with
        | nil => exact ⟨Text.ch ')', rest, by simp, by decide⟩
        | cons next others => exact ⟨Text.ch ',', _, by simp; rfl, by decide⟩
      obtain ⟨c, rest', hrest, hc⟩ := hnext
      let that : EnumScan := { this with state := .start }
      have hstart : that.state = .start := rfl
      have hentry : scan values that (entry.text ++ c :: rest') =
          scan values (that.recorded entry.ident v) (c :: rest') :=
        scan_entry hothers.1 hstart hlevel hvalue hroom hc
      have hrecorded : (that.recorded entry.ident v).values =
          this.values ++ [.ofName entry.ident v] :=
        values_recorded (hnames.free _ List.mem_cons_self) v
      have hsplit : values = (before ++ [v]) ++ vs := by simp [hvalues]
      have hcounted : (that.recorded entry.ident v).values.length = (before ++ [v]).length := by
        simp [hrecorded, hbefore]
      have hskip : (that.recorded entry.ident v).state = .skip := rfl
      obtain ⟨r, hr, hrvalues⟩ :=
        ih hothers.2 hskip hlevel hsplit hcounted (Nat.succ.inj hlength) hnames.tail
      refine ⟨r, ?_, by simp [hrvalues, hrecorded]⟩
      have hassoc : (entry :: others).flatMap (fun entry => Text.ch ',' :: entry.text) ++
          Text.ch ')' :: rest = Text.ch ',' :: (entry.text ++ c :: rest') := by
        simp [← hrest]
      rw [hassoc, scan_cons (by decide) hcomma, hentry, ← hrest, hr]

end EnumScan

namespace EnumReflector

variable {this : EnumReflector} {e : Enumerator}

theorem fromString_toStringAtom (hname : ∀ e ∈ this.values, e.name.hash = e.hashName)
    (hinj : ∀ e ∈ this.values, ∀ e' ∈ this.values, e.hashName = e'.hashName → e = e')
    (he : e ∈ this.values) : this.fromString (this.toStringAtom e.value) = e.value := by
  obtain ⟨d, hd⟩ := Option.isSome_iff_exists.mp
    (List.find?_isSome (p := fun d => decide (d.value = e.value)) |>.mpr ⟨e, he, by simp⟩)
  have hdmem : d ∈ this.values := List.mem_of_find?_eq_some hd
  have hdvalue : d.value = e.value := by simpa using List.find?_some hd
  have hatom : this.toStringAtom e.value = d.name := by
    simp [toStringAtom, toStringInternal, hd]
  obtain ⟨d', hd'⟩ := Option.isSome_iff_exists.mp
    (List.find?_isSome (p := fun d' => decide (d'.hashName = d.name.hash)) |>.mpr
      ⟨d, hdmem, by simp [hname d hdmem]⟩)
  have hhash : d'.hashName = d.name.hash := by simpa using List.find?_some hd'
  have heq : d' = d := by
    apply hinj d' (List.mem_of_find?_eq_some hd') d hdmem
    rw [hhash, hname d hdmem]
  rw [hatom]
  simp [fromString, fromStringInternal, hd', heq, hdvalue]

theorem atAsInt_getIndex (hcount : this.values.length < 2 ^ 63) (he : e ∈ this.values) :
    this.atAsInt (this.getIndex e.value) = e.value := by
  obtain ⟨i, hi⟩ := Option.isSome_iff_exists.mp
    (List.findIdx?_isSome (p := fun d => decide (d.value = e.value)) |>.trans
      (List.any_eq_true.mpr ⟨e, he, by simp⟩))
  obtain ⟨hlt, hvalue, -⟩ := List.findIdx?_eq_some_iff_getElem.mp hi
  have hindex : this.getIndex e.value = Int64.ofNat i := by
    simp [getIndex, getIndexInternal, hi]
  have hmod : i % 2 ^ 64 = i := Nat.mod_eq_of_lt (by omega)
  have hnat : (Int64.ofNat i).toUInt64.toNat = i := by
    simpa using hmod
  rw [hindex, atAsInt, atInternal, hnat]
  simpa [hlt] using hvalue

/-- Exactly the identifiers are recorded, and what follows the last parenthesis stays unread. -/
theorem ofBody_bodyText {table : HashManager} {first : EnumEntry} {others : List EnumEntry}
    {values : List Int64} (hentries : ∀ entry ∈ first :: others, entry.Valid)
    (hlength : values.length = (first :: others).length) (hcount : values.length < 2 ^ 31)
    (hnames : table.Separates ((first :: others).map EnumEntry.ident)) (rest : Text) :
    ∃ this table', ofBody table values (EnumEntry.bodyText first others ++ rest) =
        some (this, table', rest) ∧
      this.values =
        List.zipWith Enumerator.ofName ((first :: others).map EnumEntry.ident) values ∧
      (((first :: others).map EnumEntry.ident).Nodup → ∀ v ∈ values,
        this.fromString (this.toStringAtom v) = v ∧ this.atAsInt (this.getIndex v) = v) := by
  -- the first entry is one behind a comma
  let start : EnumScan := { state := .skip, table }
  have hstart : start.state = .skip := rfl
  have hothers : ∃ r, EnumScan.scan values start
      ((first :: others).flatMap (fun entry => Text.ch ',' :: entry.text) ++
        Text.ch ')' :: rest) = some (r, rest) ∧
      r.values = List.zipWith Enumerator.ofName ((first :: others).map EnumEntry.ident) values :=
    EnumScan.scan_others hentries hstart rfl (List.nil_append values).symm rfl hlength hcount hnames
  obtain ⟨r, hscan, hvalues⟩ := hothers
  have hcomma : start.read values (Text.ch ',') = some (false, { table }) := by
    simp [start, EnumScan.read, EnumScan.skip, Text.ch]
  rw [List.flatMap_cons, List.cons_append, List.cons_append,
    EnumScan.scan_cons (by decide) hcomma] at hscan
  have hbody : ofBody table values (EnumEntry.bodyText first others ++ rest) =
      some ({ values := r.values }, r.table, rest) := by
    simp only [EnumEntry.bodyText, List.append_assoc] at hscan ⊢
    rw [List.cons_append, ofBody, if_pos rfl]
    simp [hscan]
  refine ⟨{ values := r.values }, r.table, hbody, hvalues, ?_⟩
  intro hnodup v hv
  have hsame : ((first :: others).map EnumEntry.ident).length = values.length := by
    rw [List.length_map, hlength]
  rw [← Enumerator.map_value hsame, ← hvalues] at hv
  obtain ⟨e, he, rfl⟩ := List.mem_map.mp hv
  have hmem (e : Enumerator) (he : e ∈ r.values) :
      ∃ name ∈ (first :: others).map EnumEntry.ident, ∃ v, e = .ofName name v := by
    rw [hvalues, ← List.map_uncurry_zip_eq_zipWith] at he
    obtain ⟨⟨name, v⟩, hzip, rfl⟩ := List.mem_map.mp he
    exact ⟨name, (List.of_mem_zip hzip).1, v, rfl⟩
  have hdata : r.values.map (fun e => e.name.data) = (first :: others).map EnumEntry.ident := by
    rw [hvalues, Enumerator.map_data hsame]
  constructor
  · apply fromString_toStringAtom _ _ he
    · intro e he
      obtain ⟨name, -, v, rfl⟩ := hmem e he
      rfl
    · intro e he e' he' hhash
      rw [← hdata] at hnodup
      apply List.inj_on_of_nodup_map hnodup he he'
      obtain ⟨name, hname, v, rfl⟩ := hmem e he
      obtain ⟨name', hname', v', rfl⟩ := hmem e' he'
      exact hnames.eq_of_hash_eq name hname name' hname' hhash
  · apply atAsInt_getIndex _ he
    have hall : r.values.length = values.length := by
      rw [hvalues, List.length_zipWith, hsame, Nat.min_self]
    change r.values.length < 2 ^ 63
    omega

theorem ofBody_bodyText_call :
    ∃ this table', ofBody {} [5, -7] (Text.lit "( A = f(1, 2), B )x") =
        some (this, table', Text.lit "x") ∧
      this.values = List.zipWith Enumerator.ofName [Text.lit "A", Text.lit "B"] [5, -7] ∧
      ([Text.lit "A", Text.lit "B"].Nodup → ∀ v ∈ ([5, -7] : List Int64),
        this.fromString (this.toStringAtom v) = v ∧ this.atAsInt (this.getIndex v) = v) := by
  let first : EnumEntry :=
    { before := Text.lit " ", ident := Text.lit "A", behind := Text.lit " ",
      init := some (Text.lit " f(1, 2)") }
  let second : EnumEntry :=
    { before := Text.lit " ", ident := Text.lit "B", behind := Text.lit " " }
  have hinner : BalancedText true (2 ^ 31 - 2) (Text.lit "1, 2") := by
    iterate 4 refine .char (by decide) (by decide) (by decide) (by simp) ?_
    exact .nil
  have hinit : BalancedText false (2 ^ 31 - 1) (Text.lit " f(1, 2)") := by
    iterate 2 refine .char (by decide) (by decide) (by decide) (by decide) ?_
    exact .parentheses hinner .nil
  have hfirst : first.Valid :=
    ⟨by decide +kernel, by decide +kernel, by decide, by decide +kernel,
      by simpa [first] using hinit⟩
  have hsecond : second.Valid :=
    ⟨by decide +kernel, by decide +kernel, by decide, by decide +kernel, by simp [second]⟩
  have hentries : ∀ entry ∈ [first, second], entry.Valid := by
    simp [hfirst, hsecond]
  have hnames : HashManager.Separates {} [Text.lit "A", Text.lit "B"] :=
    ⟨(fun _ _ _ hinfo => nomatch hinfo), by decide +kernel⟩
  exact ofBody_bodyText hentries rfl (by decide) hnames (Text.lit "x")

/-- Two names with one hash are one name, that of the first. -/
theorem not_ofBody_bodyText :
    ¬∀ (first : EnumEntry) (others : List EnumEntry) (values : List Int64) (rest : Text),
      (∀ entry ∈ first :: others, entry.Valid) → values.length = (first :: others).length →
      ((first :: others).map EnumEntry.ident).Nodup →
      ∃ this table', ofBody {} values (EnumEntry.bodyText first others ++ rest) =
          some (this, table', rest) ∧
        (this.names.map StringHashInfo.data = (first :: others).map EnumEntry.ident ∧
          ∀ v ∈ values, this.fromString (this.toStringAtom v) = v) := by
  intro h
  let first : EnumEntry := { ident := Text.lit "yiklzcsbtzivh" }
  let second : EnumEntry := { ident := Text.lit "sqqltaCfumqzl" }
  have hfirst : first.Valid :=
    ⟨by decide +kernel, by decide +kernel, by decide, by decide +kernel, by simp [first]⟩
  have hsecond : second.Valid :=
    ⟨by decide +kernel, by decide +kernel, by decide, by decide +kernel, by simp [second]⟩
  obtain ⟨this, table', hbody, -, hback⟩ :=
    h first [second] [0, 1] [] (by simp [hfirst, hsecond]) rfl (by decide)
  have hzero : (ofBody {} [0, 1] (EnumEntry.bodyText first [second] ++ [])).map
      (fun r => r.1.fromString (r.1.toStringAtom 1)) = some 0 := by
    decide +kernel
  rw [hbody, Option.map_some, hback 1 (by decide)] at hzero
  exact absurd hzero (by decide)

end EnumReflector

end SRCommon
