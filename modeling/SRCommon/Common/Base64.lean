import SRCommon.Lib.ByteText

/-!
# Base64

Three bytes become four characters. Both loops count in `int`; where such a
counter leaves its range, or a loop reads beside the text, there is no result.
-/

namespace SRCommon

namespace Base64

def base64Chars : Text :=
  Text.lit "ABCDEFGHIJKLMNOPQRSTUVWXYZabcdefghijklmnopqrstuvwxyz0123456789+/"

/-- `isalnum`, and two characters more. -/
def isBase64 (c : UInt8) : Bool :=
  (Text.ch 'A' ≤ c && c ≤ Text.ch 'Z') || (Text.ch 'a' ≤ c && c ≤ Text.ch 'z') ||
    (Text.ch '0' ≤ c && c ≤ Text.ch '9') || c = Text.ch '+' || c = Text.ch '/'

def base64Char (i : UInt8) : UInt8 := base64Chars.getD i.toNat 0

/-- `base64_chars.find`, where `npos` is cut to a byte. -/
def base64Index (c : UInt8) : UInt8 := ((base64Chars.idxOf? c).map Nat.toUInt8).getD 255

/-- `char_array_4` from `char_array_3`. -/
def encodeArray (a b c : UInt8) : Text :=
  [(a &&& 0xfc) >>> 2, ((a &&& 0x03) <<< 4) + ((b &&& 0xf0) >>> 4),
    ((b &&& 0x0f) <<< 2) + ((c &&& 0xc0) >>> 6), c &&& 0x3f]

/-- `char_array_3` from `char_array_4`. -/
def decodeArray (x y z w : UInt8) : Text :=
  [(x <<< 2) + ((y &&& 0x30) >>> 4), ((y &&& 0xf) <<< 4) + ((z &&& 0x3c) >>> 2),
    ((z &&& 0x3) <<< 6) + w]

/-- A size that is assigned to an `int`. -/
def toInt (n : ℕ) : ℤ :=
  if n % 2 ^ 32 < 2 ^ 31 then (n % 2 ^ 32 : ℕ) else (n % 2 ^ 32 : ℕ) - 2 ^ 32

/-- With the first characters of `char_array_3`, and with what is encoded. -/
def encodeLoop (inLen : ℤ) (array ret : Text) : Text → Option (Text × Text)
  | [] => if inLen = 0 then some (array, ret) else none
  | c :: data =>
      if inLen = 0 then some (array, ret)
      else if inLen ≤ -2 ^ 31 then none
      else match array with
        | [a, b] => encodeLoop (inLen - 1) [] (ret ++ (encodeArray a b c).map base64Char) data
        | array => encodeLoop (inLen - 1) (array ++ [c]) ret data

def encodeRest (array : Text) : Text :=
  if array = [] then []
  else
    ((encodeArray (array.getD 0 0) (array.getD 1 0) (array.getD 2 0)).take
        (array.length + 1)).map base64Char ++
      List.replicate (3 - array.length) (Text.ch '=')

def base64Encode (data : Text) : Option Text :=
  (encodeLoop (toInt data.length) [] [] data).map fun r => r.2 ++ encodeRest r.1

/-- Behind the text there is a zero byte, which ends the loop. -/
def decodeLoop (inLen : ℤ) (in_ : ℕ) (array ret : Text) : Text → Option (Text × Text)
  | [] => if inLen ≤ -2 ^ 31 then none else some (array, ret)
  | c :: base64 =>
      if inLen = 0 then some (array, ret)
      else if inLen ≤ -2 ^ 31 then none
      else if c = Text.ch '=' ∨ isBase64 c = false then some (array, ret)
      else if 2 ^ 31 ≤ in_ + 1 then none
      else match array with
        | [x, y, z] =>
            decodeLoop (inLen - 1) (in_ + 1) []
              (ret ++ decodeArray (base64Index x) (base64Index y) (base64Index z) (base64Index c))
              base64
        | array => decodeLoop (inLen - 1) (in_ + 1) (array ++ [c]) ret base64

def decodeRest (array : Text) : Text :=
  if array = [] then []
  else
    (decodeArray (base64Index (array.getD 0 0)) (base64Index (array.getD 1 0))
      (base64Index (array.getD 2 0)) (base64Index (array.getD 3 0))).take (array.length - 1)

def base64Decode (base64 : Text) : Option Text :=
  (decodeLoop (toInt base64.length) 0 [] [] base64).map fun r => r.2 ++ decodeRest r.1

/-! ## Bytes and characters -/

/-- A fact about one byte is one about its number. -/
theorem toNat_eq_of_forall {f : UInt8 → UInt8} {g : ℕ → ℕ}
    (h : ∀ n < 256, (f n.toUInt8).toNat = g n) (a : UInt8) : (f a).toNat = g a.toNat := by
  have ha : a.toNat.toUInt8 = a := UInt8.ofNat_toNat
  rw [← h a.toNat a.toNat_lt, ha]

theorem map_toNat_encodeArray (a b c : UInt8) : (encodeArray a b c).map UInt8.toNat =
    [a.toNat / 4, a.toNat % 4 * 16 + b.toNat / 16, b.toNat % 16 * 4 + c.toNat / 64,
      c.toNat % 64] := by
  have ha : ((a &&& 0xfc) >>> 2).toNat = a.toNat / 4 :=
    toNat_eq_of_forall (f := fun a => (a &&& 0xfc) >>> 2) (g := (· / 4)) (by decide +kernel) a
  have ha' : ((a &&& 0x03) <<< 4).toNat = a.toNat % 4 * 16 :=
    toNat_eq_of_forall (f := fun a => (a &&& 0x03) <<< 4) (g := (· % 4 * 16)) (by decide +kernel) a
  have hb : ((b &&& 0xf0) >>> 4).toNat = b.toNat / 16 :=
    toNat_eq_of_forall (f := fun b => (b &&& 0xf0) >>> 4) (g := (· / 16)) (by decide +kernel) b
  have hb' : ((b &&& 0x0f) <<< 2).toNat = b.toNat % 16 * 4 :=
    toNat_eq_of_forall (f := fun b => (b &&& 0x0f) <<< 2) (g := (· % 16 * 4)) (by decide +kernel) b
  have hc : ((c &&& 0xc0) >>> 6).toNat = c.toNat / 64 :=
    toNat_eq_of_forall (f := fun c => (c &&& 0xc0) >>> 6) (g := (· / 64)) (by decide +kernel) c
  have hc' : (c &&& 0x3f).toNat = c.toNat % 64 :=
    toNat_eq_of_forall (f := fun c => c &&& 0x3f) (g := (· % 64)) (by decide +kernel) c
  have hblt := b.toNat_lt
  have hclt := c.toNat_lt
  have hsum : (a.toNat % 4 * 16 + b.toNat / 16) % 2 ^ 8 = a.toNat % 4 * 16 + b.toNat / 16 :=
    Nat.mod_eq_of_lt (by omega)
  have hsum' : (b.toNat % 16 * 4 + c.toNat / 64) % 2 ^ 8 = b.toNat % 16 * 4 + c.toNat / 64 :=
    Nat.mod_eq_of_lt (by omega)
  simp only [encodeArray, List.map_cons, List.map_nil, UInt8.toNat_add, ha, ha', hb, hb', hc, hc',
    hsum, hsum']

theorem map_toNat_decodeArray (x y z w : UInt8) : (decodeArray x y z w).map UInt8.toNat =
    [(x.toNat * 4 % 256 + y.toNat / 16 % 4) % 256,
      (y.toNat % 16 * 16 + z.toNat / 4 % 16) % 256, (z.toNat % 4 * 64 + w.toNat) % 256] := by
  have hx : (x <<< 2).toNat = x.toNat * 4 % 256 :=
    toNat_eq_of_forall (f := (· <<< 2)) (g := (· * 4 % 256)) (by decide +kernel) x
  have hy : ((y &&& 0x30) >>> 4).toNat = y.toNat / 16 % 4 :=
    toNat_eq_of_forall (f := fun y => (y &&& 0x30) >>> 4) (g := (· / 16 % 4)) (by decide +kernel) y
  have hy' : ((y &&& 0xf) <<< 4).toNat = y.toNat % 16 * 16 :=
    toNat_eq_of_forall (f := fun y => (y &&& 0xf) <<< 4) (g := (· % 16 * 16)) (by decide +kernel) y
  have hz : ((z &&& 0x3c) >>> 2).toNat = z.toNat / 4 % 16 :=
    toNat_eq_of_forall (f := fun z => (z &&& 0x3c) >>> 2) (g := (· / 4 % 16)) (by decide +kernel) z
  have hz' : ((z &&& 0x3) <<< 6).toNat = z.toNat % 4 * 64 :=
    toNat_eq_of_forall (f := fun z => (z &&& 0x3) <<< 6) (g := (· % 4 * 64)) (by decide +kernel) z
  simp only [decodeArray, List.map_cons, List.map_nil, UInt8.toNat_add, hx, hy, hy', hz, hz']

theorem base64Index_base64Char {i : UInt8} (h : i.toNat < 64) : base64Index (base64Char i) = i := by
  have hall : ∀ n < 64, base64Index (base64Char n.toUInt8) = n.toUInt8 := by decide +kernel
  have hi : i.toNat.toUInt8 = i := UInt8.ofNat_toNat
  rw [← hi]
  exact hall i.toNat h

theorem base64Char_plain {i : UInt8} (h : i.toNat < 64) : base64Char i ∈ base64Chars ∧
    base64Char i ≠ Text.ch '=' ∧ isBase64 (base64Char i) = true := by
  have hall : ∀ n < 64, base64Char n.toUInt8 ∈ base64Chars ∧
      base64Char n.toUInt8 ≠ Text.ch '=' ∧ isBase64 (base64Char n.toUInt8) = true := by
    decide +kernel
  have hi : i.toNat.toUInt8 = i := UInt8.ofNat_toNat
  rw [← hi]
  exact hall i.toNat h

theorem toNat_lt_of_mem_encodeArray {a b c i : UInt8} (h : i ∈ encodeArray a b c) :
    i.toNat < 64 := by
  have hmem := List.mem_map_of_mem (f := UInt8.toNat) h
  have ha := a.toNat_lt
  have hb := b.toNat_lt
  have hc := c.toNat_lt
  rw [map_toNat_encodeArray] at hmem
  simp only [List.mem_cons, List.not_mem_nil, or_false] at hmem
  omega

/-- The characters of three bytes. -/
def group (a b c : UInt8) : Text := (encodeArray a b c).map base64Char

theorem map_base64Index_group (a b c : UInt8) :
    (group a b c).map base64Index = encodeArray a b c := by
  rw [group, List.map_map]
  apply (List.map_congr_left _).trans (List.map_id _)
  intro i hi
  exact base64Index_base64Char (toNat_lt_of_mem_encodeArray hi)

theorem plain_of_mem_group {a b c d : UInt8} (h : d ∈ group a b c) : d ∈ base64Chars ∧
    d ≠ Text.ch '=' ∧ isBase64 d = true := by
  obtain ⟨i, hi, rfl⟩ := List.mem_map.mp h
  exact base64Char_plain (toNat_lt_of_mem_encodeArray hi)

/-- The bytes come back, whatever is decoded behind them. -/
theorem decodeArray_encodeArray (a b c : UInt8) {x y z w : UInt8}
    (h : encodeArray a b c = [x, y, z, w]) :
    decodeArray x y z w = [a, b, c] ∧ (∀ z' w', (decodeArray x y z' w').take 1 = [a]) ∧
      ∀ w', (decodeArray x y z w').take 2 = [a, b] := by
  have hmap := map_toNat_encodeArray a b c
  rw [h] at hmap
  simp only [List.map_cons, List.map_nil, List.cons.injEq, and_true] at hmap
  obtain ⟨hx, hy, hz, hw⟩ := hmap
  have ha := a.toNat_lt
  have hb := b.toNat_lt
  have hc := c.toNat_lt
  have hinj : Function.Injective (List.map UInt8.toNat) :=
    List.map_injective_iff.mpr fun _ _ => UInt8.toNat_inj.mp
  refine ⟨hinj ?_, fun z' w' => hinj ?_, fun w' => hinj ?_⟩
  · rw [map_toNat_decodeArray]
    simp only [List.map_cons, List.map_nil, List.cons.injEq, and_true]
    omega
  · rw [List.map_take, map_toNat_decodeArray]
    simp only [List.take_succ_cons, List.take_zero, List.map_cons, List.map_nil, List.cons.injEq,
      and_true]
    omega
  · rw [List.map_take, map_toNat_decodeArray]
    simp only [List.take_succ_cons, List.take_zero, List.map_cons, List.map_nil, List.cons.injEq,
      and_true]
    omega

/-! ## The two loops -/

/-- What is encoded, three bytes at a time. -/
def encoded : Text → Text
  | a :: b :: c :: data => group a b c ++ encoded data
  | array => encodeRest array

/-- Three bytes are encoded. -/
theorem encodeLoop_group {inLen : ℤ} (h : 3 ≤ inLen) (a b c : UInt8) (data ret : Text) :
    encodeLoop inLen [] ret (a :: b :: c :: data) =
      encodeLoop (inLen - 3) [] (ret ++ group a b c) data := by
  have hstep (k : ℤ) (hk : 0 < k) : ¬k = 0 ∧ ¬k ≤ -2 ^ 31 := by omega
  obtain ⟨h1, h1'⟩ := hstep inLen (by omega)
  obtain ⟨h2, h2'⟩ := hstep (inLen - 1) (by omega)
  obtain ⟨h3, h3'⟩ := hstep (inLen - 1 - 1) (by omega)
  have hlast : inLen - 1 - 1 - 1 = inLen - 3 := by omega
  rw [← hlast]
  simp only [encodeLoop, if_neg h1, if_neg h1', if_neg h2, if_neg h2', if_neg h3, if_neg h3',
    List.nil_append, List.cons_append, group]

theorem encodeLoop_encoded (data ret : Text) (hlength : data.length < 2 ^ 31) :
    (encodeLoop data.length [] ret data).map (fun r => r.2 ++ encodeRest r.1) =
      some (ret ++ encoded data) := by
  induction data using encoded.induct generalizing ret with
  | case1 a b c data ih =>
      have hcount : ((a :: b :: c :: data).length : ℤ) - 3 = data.length := by
        simp only [List.length_cons]
        omega
      have hthree : 3 ≤ ((a :: b :: c :: data).length : ℤ) := by
        simp only [List.length_cons]
        omega
      simp only [List.length_cons] at hlength
      rw [encodeLoop_group hthree, hcount, ih _ (by omega), encoded, List.append_assoc]
  | case2 array hshort =>
      match array, hshort with
      | [], _ => rfl
      | [a], _ => rfl
      | [a, b], _ => rfl
      | a :: b :: c :: data, hshort => exact absurd rfl (hshort a b c data)

/-- A character of the alphabet. -/
def Plain (c : UInt8) : Prop := c ≠ Text.ch '=' ∧ isBase64 c = true

theorem Plain.not_stop {c : UInt8} (hc : Plain c) :
    ¬(c = Text.ch '=' ∨ isBase64 c = false) := by
  rintro (heq | hfalse)
  · exact hc.1 heq
  · rw [hc.2] at hfalse
    cases hfalse

theorem decodeLoop_char {inLen : ℤ} {in_ : ℕ} (h : 0 < inLen) (hin : in_ + 1 < 2 ^ 31) {c : UInt8}
    (hc : Plain c) {array : Text} (harray : array.length < 3) (ret base64 : Text) :
    decodeLoop inLen in_ array ret (c :: base64) =
      decodeLoop (inLen - 1) (in_ + 1) (array ++ [c]) ret base64 := by
  have hshort (x y z : UInt8) (heq : array = [x, y, z]) : False := by
    rw [heq] at harray
    exact lt_irrefl 3 harray
  rw [decodeLoop, if_neg (by omega), if_neg (by omega), if_neg hc.not_stop, if_neg (by omega)]
  exact hshort

theorem decodeLoop_fourth {inLen : ℤ} {in_ : ℕ} (h : 0 < inLen) (hin : in_ + 1 < 2 ^ 31) {c : UInt8}
    (hc : Plain c) (x y z : UInt8) (ret base64 : Text) :
    decodeLoop inLen in_ [x, y, z] ret (c :: base64) =
      decodeLoop (inLen - 1) (in_ + 1) []
        (ret ++ decodeArray (base64Index x) (base64Index y) (base64Index z) (base64Index c))
        base64 := by
  rw [decodeLoop, if_neg (by omega), if_neg (by omega), if_neg hc.not_stop, if_neg (by omega)]

theorem decodeLoop_stop {inLen : ℤ} (h : 0 < inLen) (in_ : ℕ) (array ret base64 : Text) :
    decodeLoop inLen in_ array ret (Text.ch '=' :: base64) = some (array, ret) := by
  unfold decodeLoop
  rw [if_neg (by omega), if_neg (by omega), if_pos (.inl rfl)]

/-- Four characters are decoded. -/
theorem decodeLoop_group {inLen : ℤ} {in_ : ℕ} (h : 4 ≤ inLen) (hin : in_ + 4 < 2 ^ 31)
    {p q r t : UInt8} (hp : Plain p) (hq : Plain q) (hr : Plain r) (ht : Plain t)
    (ret base64 : Text) :
    decodeLoop inLen in_ [] ret (p :: q :: r :: t :: base64) =
      decodeLoop (inLen - 4) (in_ + 4) []
        (ret ++ decodeArray (base64Index p) (base64Index q) (base64Index r) (base64Index t))
        base64 := by
  have hlast : inLen - 1 - 1 - 1 - 1 = inLen - 4 := by omega
  rw [decodeLoop_char (by omega) (by omega) hp (by decide),
    decodeLoop_char (by omega) (by omega) hq (by simp),
    decodeLoop_char (by omega) (by omega) hr (by simp), ← hlast]
  exact decodeLoop_fourth (by omega) (by omega) ht p q r ret base64

/-- The characters of a group, by themselves. -/
theorem exists_group (a b c : UInt8) : ∃ p q r t, group a b c = [p, q, r, t] ∧ Plain p ∧ Plain q ∧
    Plain r ∧ Plain t ∧
    encodeArray a b c = [base64Index p, base64Index q, base64Index r, base64Index t] := by
  have hplain (d : UInt8) (hd : d ∈ group a b c) : Plain d := (plain_of_mem_group hd).2
  exact ⟨_, _, _, _, rfl, hplain _ (by simp [group, encodeArray]),
    hplain _ (by simp [group, encodeArray]), hplain _ (by simp [group, encodeArray]),
    hplain _ (by simp [group, encodeArray]), (map_base64Index_group a b c).symm⟩

theorem encoded_one (a : UInt8) :
    encoded [a] = (group a 0 0).take 2 ++ [Text.ch '=', Text.ch '='] := rfl

theorem encoded_two (a b : UInt8) :
    encoded [a, b] = (group a b 0).take 3 ++ [Text.ch '='] := rfl

theorem decodeLoop_encoded (data ret : Text) {in_ : ℕ}
    (hlength : in_ + (encoded data).length < 2 ^ 31) :
    (decodeLoop (encoded data).length in_ [] ret (encoded data)).map
      (fun r => r.2 ++ decodeRest r.1) = some (ret ++ data) := by
  induction data using encoded.induct generalizing ret in_ with
  | case1 a b c data ih =>
      obtain ⟨p, q, r, t, hgroup, hp, hq, hr, ht, harray⟩ := exists_group a b c
      have hencoded : encoded (a :: b :: c :: data) = p :: q :: r :: t :: encoded data := by
        rw [encoded, hgroup]
        rfl
      rw [hencoded] at hlength ⊢
      simp only [List.length_cons] at hlength
      have hcount : ((p :: q :: r :: t :: encoded data).length : ℤ) - 4 =
          (encoded data).length := by
        simp only [List.length_cons]
        omega
      have hfour : 4 ≤ ((p :: q :: r :: t :: encoded data).length : ℤ) := by
        simp only [List.length_cons]
        omega
      rw [decodeLoop_group hfour (by omega) hp hq hr ht, hcount, ih _ (by omega),
        (decodeArray_encodeArray a b c harray).1, List.append_assoc]
      rfl
  | case2 array hshort =>
      match array, hshort with
      | [], _ =>
          have hempty : encoded [] = [] := rfl
          rw [hempty]
          rfl
      | [a], _ =>
          obtain ⟨p, q, r, t, hgroup, hp, hq, -, -, harray⟩ := exists_group a 0 0
          have hencoded : encoded [a] = [p, q, Text.ch '=', Text.ch '='] := by
            rw [encoded_one, hgroup]
            rfl
          rw [hencoded] at hlength ⊢
          simp only [List.length_cons, List.length_nil] at hlength ⊢
          rw [decodeLoop_char (by omega) (by omega) hp (by decide),
            decodeLoop_char (by omega) (by omega) hq (by simp), decodeLoop_stop (by omega)]
          have hback := (decodeArray_encodeArray a 0 0 harray).2.1 (base64Index 0) (base64Index 0)
          exact congrArg (fun rest => some (ret ++ rest)) hback
      | [a, b], _ =>
          obtain ⟨p, q, r, t, hgroup, hp, hq, hr, -, harray⟩ := exists_group a b 0
          have hencoded : encoded [a, b] = [p, q, r, Text.ch '='] := by
            rw [encoded_two, hgroup]
            rfl
          rw [hencoded] at hlength ⊢
          simp only [List.length_cons, List.length_nil] at hlength ⊢
          rw [decodeLoop_char (by omega) (by omega) hp (by decide),
            decodeLoop_char (by omega) (by omega) hq (by simp),
            decodeLoop_char (by omega) (by omega) hr (by simp), decodeLoop_stop (by omega)]
          have hback := (decodeArray_encodeArray a b 0 harray).2.2 (base64Index 0)
          exact congrArg (fun rest => some (ret ++ rest)) hback
      | a :: b :: c :: data, hshort => exact absurd rfl (hshort a b c data)

/-- A negative counter leaves its range as long as there are characters. -/
theorem decodeLoop_negative {inLen : ℤ} {in_ : ℕ} {base64 : Text} (hneg : inLen < 0)
    (hlength : inLen + 2 ^ 31 ≤ base64.length)
    (hplain : ∀ c ∈ base64.take (inLen + 2 ^ 31).toNat, Plain c) (array ret : Text) :
    decodeLoop inLen in_ array ret base64 = none := by
  induction base64 generalizing inLen in_ array ret with
  | nil =>
      rw [List.length_nil] at hlength
      rw [decodeLoop, if_pos (by omega)]
  | cons c base64 ih =>
      by_cases hmin : inLen ≤ -2 ^ 31
      · unfold decodeLoop
        rw [if_neg (by omega), if_pos hmin]
      · have hcount : (inLen + 2 ^ 31).toNat = (inLen - 1 + 2 ^ 31).toNat + 1 := by omega
        rw [hcount, List.take_succ_cons, List.forall_mem_cons] at hplain
        rw [List.length_cons] at hlength
        have hrest (array ret : Text) :
            decodeLoop (inLen - 1) (in_ + 1) array ret base64 = none :=
          ih (by omega) (by omega) hplain.2 array ret
        unfold decodeLoop
        rw [if_neg (by omega), if_neg hmin, if_neg hplain.1.not_stop]
        split
        · rfl
        · split
          · exact hrest _ _
          · exact hrest _ _

/-! ## Texts that come back -/

/-- Characters of the alphabet, and at most two signs behind them. -/
theorem exists_body (data : Text) : ∃ body k,
    encoded data = body ++ List.replicate k (Text.ch '=') ∧ k ≤ 2 ∧ (encoded data).length = 4 * ((data.length + 2) / 3) ∧
    ∀ c ∈ body, c ∈ base64Chars ∧ Plain c := by
  induction data using encoded.induct with
  | case1 a b c data ih =>
      obtain ⟨body, k, hbody, hk, hlength, hplain⟩ := ih
      refine ⟨group a b c ++ body, k, ?_, hk, ?_, fun d hd => ?_⟩
      · rw [encoded, hbody, List.append_assoc]
      · have hfour : (group a b c).length = 4 := rfl
        rw [encoded, List.length_append, hlength, hfour]
        simp only [List.length_cons]
        omega
      · rcases List.mem_append.mp hd with hd | hd
        · exact plain_of_mem_group hd
        · exact hplain d hd
  | case2 array hshort =>
      match array, hshort with
      | [], _ => exact ⟨[], 0, rfl, by decide, rfl, nofun⟩
      | [a], _ =>
          refine ⟨(group a 0 0).take 2, 2, encoded_one a, le_rfl,
            by simp [encoded, encodeRest, encodeArray], fun d hd => ?_⟩
          exact plain_of_mem_group (List.mem_of_mem_take hd)
      | [a, b], _ =>
          refine ⟨(group a b 0).take 3, 1, encoded_two a b, by decide,
            by simp [encoded, encodeRest, encodeArray], fun d hd => ?_⟩
          exact plain_of_mem_group (List.mem_of_mem_take hd)
      | a :: b :: c :: data, hshort => exact absurd rfl (hshort a b c data)

theorem toInt_of_lt {n : ℕ} (h : n < 2 ^ 31) : toInt n = n := by
  have hmod : n % 2 ^ 32 = n := Nat.mod_eq_of_lt (by omega)
  rw [toInt, hmod, if_pos h]

theorem base64Encode_eq {data : Text} (h : data.length < 2 ^ 31) :
    base64Encode data = some (encoded data) := by
  rw [base64Encode, toInt_of_lt h, encodeLoop_encoded data [] h, List.nil_append]

/-- The text is encoded by characters of the alphabet and decoded again. -/
def RoundTrips (data : Text) : Prop :=
  ∃ base64, base64Encode data = some base64 ∧ base64Decode base64 = some data ∧
    base64.length = 4 * ((data.length + 2) / 3) ∧
    ∃ body k, base64 = body ++ List.replicate k (Text.ch '=') ∧ k ≤ 2 ∧
      ∀ c ∈ body, c ∈ base64Chars

/-- A text whose encoding has a negative size for the decoder. -/
theorem base64Decode_encoded {data : Text} (h : data.length < 2 ^ 31)
    (hsize : 2 ^ 31 ≤ 4 * ((data.length + 2) / 3)) : base64Decode (encoded data) = none := by
  obtain ⟨body, k, hbody, hk, hlength, hplain⟩ := exists_body data
  have hint : toInt (encoded data).length = (encoded data).length - 2 ^ 32 := by
    have hmod : (encoded data).length % 2 ^ 32 = (encoded data).length :=
      Nat.mod_eq_of_lt (by omega)
    rw [toInt, hmod, if_neg (by omega)]
  have hbodylength : body.length + k = (encoded data).length := by
    rw [hbody, List.length_append, List.length_replicate]
  rw [base64Decode, hint, decodeLoop_negative (by omega) (by omega), Option.map_none]
  have hcount : ((encoded data).length - 2 ^ 32 + 2 ^ 31 : ℤ).toNat ≤ body.length := by omega
  intro c hc
  rw [hbody, List.take_append_of_le_length (by rw [← hbody]; exact hcount)] at hc
  exact (hplain c (List.mem_of_mem_take hc)).2

/-- A text comes back exactly when the size of its encoding fits an `int`. -/
theorem base64Decode_base64Encode_iff {data : Text} (h : data.length < 2 ^ 31) :
    RoundTrips data ↔ 4 * ((data.length + 2) / 3) < 2 ^ 31 := by
  constructor
  · rintro ⟨base64, hencode, hdecode, -⟩
    rw [base64Encode_eq h] at hencode
    cases hencode
    by_contra hsize
    rw [base64Decode_encoded h (Nat.le_of_not_lt hsize)] at hdecode
    cases hdecode
  · intro hsize
    obtain ⟨body, k, hbody, hk, hlength, hplain⟩ := exists_body data
    refine ⟨encoded data, base64Encode_eq h, ?_, hlength, body, k, hbody, hk,
      fun c hc => (hplain c hc).1⟩
    have hshort : (encoded data).length < 2 ^ 31 := by
      rw [hlength]
      exact hsize
    have hzero : 0 + (encoded data).length < 2 ^ 31 := by
      rw [Nat.zero_add]
      exact hshort
    rw [base64Decode, toInt_of_lt hshort, decodeLoop_encoded data [] hzero, List.nil_append]

theorem base64Decode_base64Encode_iff_man : RoundTrips (Text.lit "Man!") ↔
    4 * (((Text.lit "Man!").length + 2) / 3) < 2 ^ 31 :=
  base64Decode_base64Encode_iff (by decide)

example : (base64Encode (Text.lit "Man!")) = some (Text.lit "TWFuIQ==") := by decide

/-- The size of the encoding is the first that does not fit. -/
theorem not_base64Decode_base64Encode : ¬∀ data : Text, data.length < 2 ^ 31 → RoundTrips data := by
  intro h
  have hlength : (List.replicate 1610612734 (0 : UInt8)).length = 1610612734 :=
    List.length_replicate
  have hlt : (List.replicate 1610612734 (0 : UInt8)).length < 2 ^ 31 := by
    rw [hlength]
    decide
  obtain ⟨base64, hencode, hdecode, -⟩ := h _ hlt
  rw [base64Encode_eq hlt] at hencode
  cases hencode
  have hnone : base64Decode (encoded (List.replicate 1610612734 0)) = none := by
    apply base64Decode_encoded hlt
    rw [hlength]
    decide
  rw [hnone] at hdecode
  cases hdecode

end Base64

end SRCommon
