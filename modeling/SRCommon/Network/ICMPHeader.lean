import Mathlib.Data.List.Basic
import SRCommon.Lib.ByteText
import SRCommon.Lib.OnesComplement

/-!
# The header of a ping

Each setter of two bytes casts its argument to one byte, that of the checksum too.
-/

namespace SRCommon

/-- The enumeration has every value of `uint8_t`; `AsioPinger` casts the code to it. -/
abbrev ICMPType := UInt8

@[ext] structure ICMPHeader where
  rep : List UInt8
  size : rep.length = 8

namespace ICMPHeader

def init : ICMPHeader := ⟨List.replicate 8 0, rfl⟩

section

variable (header : ICMPHeader)

def decode (a b : ℕ) : UInt16 :=
  ((header.rep.getD a 0).toUInt16 <<< 8) + (header.rep.getD b 0).toUInt16

def set (a : ℕ) (c : UInt8) : ICMPHeader :=
  ⟨header.rep.set a c, List.length_set.trans header.size⟩

@[simp] theorem rep_set (a : ℕ) (c : UInt8) : (header.set a c).rep = header.rep.set a c := rfl

def encode (a b : ℕ) (n : UInt16) : ICMPHeader :=
  (header.set a (n >>> 8).toUInt8).set b (n &&& 0xFF).toUInt8

def type : UInt8 := header.rep.getD 0 0

def code : UInt8 := header.rep.getD 1 0

def checksum : UInt16 := header.decode 2 3

def identifier : UInt16 := header.decode 4 5

def sequenceNumber : UInt16 := header.decode 6 7

def setType (type : ICMPType) : ICMPHeader := header.set 0 type

def setCode (type : ICMPType) : ICMPHeader := header.set 1 type

def setChecksum (type : UInt16) : ICMPHeader := header.encode 2 3 type.toUInt8.toUInt16

def setIdentifier (type : UInt16) : ICMPHeader := header.encode 4 5 type.toUInt8.toUInt16

def setSequenceNumber (type : UInt16) : ICMPHeader := header.encode 6 7 type.toUInt8.toUInt16

end

/-- The loop of `ComputeChecksum`. -/
def sumBody : List UInt8 → UInt32 → UInt32
  | [], sum => sum
  | [c], sum => sum + (c.toUInt32 <<< 8)
  | c :: c' :: body, sum => sumBody body (sum + (c.toUInt32 <<< 8) + c'.toUInt32)

def foldSum (sum : UInt32) : UInt32 :=
  let sum := (sum >>> 16) + (sum &&& 0xFFFF)
  sum + (sum >>> 16)

def computeChecksum (header : ICMPHeader) (body : List UInt8) : ICMPHeader :=
  let sum := (header.type.toUInt32 <<< 8) + header.code.toUInt32 + header.identifier.toUInt32 +
    header.sequenceNumber.toUInt32
  header.setChecksum (~~~(foldSum (sumBody body sum))).toUInt16

/-- The header that `AsioPinger::StartSend` makes. -/
def echo (header : ICMPHeader) (type code : ICMPType) (identifier sequenceNumber : UInt16)
    (body : List UInt8) : ICMPHeader :=
  ((((header.setType type).setCode code).setIdentifier identifier).setSequenceNumber
    sequenceNumber).computeChecksum body

/-- Words of two bytes, the last one padded with zero. -/
def words : List UInt8 → List ℕ
  | [] => []
  | [c] => [c.toNat * 2 ^ 8]
  | c :: c' :: bytes => (c.toNat * 2 ^ 8 + c'.toNat) :: words bytes

theorem words_lt (bytes : List UInt8) : ∀ w ∈ words bytes, w < 2 ^ 16 := by
  fun_induction words bytes with
  | case1 => simp
  | case2 c =>
      have := c.toNat_lt
      simp
      omega
  | case3 c c' bytes ih =>
      have := c.toNat_lt
      have := c'.toNat_lt
      rw [List.forall_mem_cons]
      exact ⟨by omega, ih⟩

theorem toNat_shift (c : UInt8) : (c.toUInt32 <<< 8).toNat = c.toNat * 2 ^ 8 := by
  have := c.toNat_lt
  have hshift : UInt32.toNat 8 % 32 = 8 := rfl
  rw [UInt32.toNat_shiftLeft, hshift, UInt8.toNat_toUInt32, Nat.shiftLeft_eq]
  omega

theorem toNat_sumBody (body : List UInt8) (sum : UInt32) :
    (sumBody body sum).toNat = (sum.toNat + (words body).sum) % 2 ^ 32 := by
  fun_induction sumBody body sum with
  | case1 sum =>
      rw [words, List.sum_nil, Nat.add_zero, Nat.mod_eq_of_lt sum.toNat_lt]
  | case2 c sum =>
      rw [UInt32.toNat_add, toNat_shift, words, List.sum_singleton]
  | case3 c c' body sum ih =>
      rw [ih, UInt32.toNat_add, UInt32.toNat_add, toNat_shift, UInt8.toNat_toUInt32, words,
        List.sum_cons]
      omega

theorem toNat_foldSum (sum : UInt32) :
    (foldSum sum).toNat % 2 ^ 16 =
      OnesComplement.fold (2 ^ 16) (OnesComplement.fold (2 ^ 16) sum.toNat) := by
  have hsum := sum.toNat_lt
  have hshift : UInt32.toNat 16 % 32 = 16 := rfl
  have hmask : UInt32.toNat 0xFFFF = 2 ^ 16 - 1 := rfl
  rw [foldSum, UInt32.toNat_add, UInt32.toNat_shiftRight, UInt32.toNat_add,
    UInt32.toNat_shiftRight, UInt32.toNat_and, hshift, hmask, Nat.and_two_pow_sub_one_eq_mod,
    Nat.shiftRight_eq_div_pow, Nat.shiftRight_eq_div_pow, OnesComplement.fold, OnesComplement.fold]
  omega

theorem high_eq_zero {n : UInt16} (h : n < 256) : (n >>> 8).toUInt8 = 0 := by
  have hn : n.toNat < 2 ^ 8 := UInt16.lt_iff_toNat_lt.mp h
  have hshift : UInt16.toNat 8 % 16 = 8 := rfl
  apply UInt8.toNat_inj.mp
  rw [UInt16.toNat_toUInt8, UInt16.toNat_shiftRight, hshift, Nat.shiftRight_eq_div_pow,
    Nat.div_eq_of_lt hn]
  rfl

/-- The two bytes hold the low byte of the argument. -/
theorem encode_low (header : ICMPHeader) (a b : ℕ) (n : UInt16) :
    header.encode a b n.toUInt8.toUInt16 = (header.set a 0).set b n.toUInt8 := by
  have hn := n.toUInt8.toNat_lt
  have hmask : UInt16.toNat 0xFF = 2 ^ 8 - 1 := rfl
  have hlow : (n.toUInt8.toUInt16 &&& 0xFF).toUInt8 = n.toUInt8 := by
    apply UInt8.toNat_inj.mp
    rw [UInt16.toNat_toUInt8, UInt16.toNat_and, hmask, UInt8.toNat_toUInt16,
      Nat.and_two_pow_sub_one_eq_mod, Nat.mod_mod, Nat.mod_eq_of_lt hn]
  have hbyte : n.toUInt8.toUInt16 < 256 := by
    rw [UInt16.lt_iff_toNat_lt, UInt8.toNat_toUInt16]
    exact hn
  rw [encode, high_eq_zero hbyte, hlow]

theorem words_append_eight (a b c d e f g h : UInt8) (body : List UInt8) :
    words ([a, b, c, d, e, f, g, h] ++ body) =
      [a.toNat * 2 ^ 8 + b.toNat, c.toNat * 2 ^ 8 + d.toNat, e.toNat * 2 ^ 8 + f.toNat,
        g.toNat * 2 ^ 8 + h.toNat] ++ words body := rfl

/-- The checksum that a message with a zero in its place needs. -/
def rfcChecksum (bytes : List UInt8) : ℕ := 2 ^ 16 - 1 - OnesComplement.sum (2 ^ 16) (words bytes)

theorem exists_bytes (header : ICMPHeader) :
    ∃ a b c d e f g h : UInt8, header.rep = [a, b, c, d, e, f, g, h] :=
  match header with
  | ⟨[a, b, c, d, e, f, g, h], _⟩ => ⟨a, b, c, d, e, f, g, h, rfl⟩

theorem sum_words_le (bytes : List UInt8) :
    2 * (words bytes).sum ≤ (bytes.length + 1) * (2 ^ 16 - 1) := by
  fun_induction words bytes with
  | case1 => exact Nat.zero_le _
  | case2 c =>
      have := c.toNat_lt
      rw [List.sum_singleton, List.length_singleton]
      omega
  | case3 c c' bytes ih =>
      have := c.toNat_lt
      have := c'.toNat_lt
      rw [List.sum_cons, List.length_cons, List.length_cons]
      omega

theorem toNat_decode (header : ICMPHeader) (a b : ℕ) :
    (header.decode a b).toNat =
      (header.rep.getD a 0).toNat * 2 ^ 8 + (header.rep.getD b 0).toNat := by
  have := (header.rep.getD a 0).toNat_lt
  have := (header.rep.getD b 0).toNat_lt
  have hshift : UInt16.toNat 8 % 16 = 8 := rfl
  rw [decode, UInt16.toNat_add, UInt16.toNat_shiftLeft, hshift, UInt8.toNat_toUInt16,
    UInt8.toNat_toUInt16, Nat.shiftLeft_eq]
  omega

/-- The loop and the foldings compute the sum, but one byte of its complement is kept. -/
theorem rep_computeChecksum {header : ICMPHeader} {a b c d e f g h : UInt8}
    (hrep : header.rep = [a, b, c, d, e, f, g, h]) {body : List UInt8}
    (hbody : body.length < 65508) :
    (header.computeChecksum body).rep =
      [a, b, 0, UInt8.ofNat (rfcChecksum ([a, b, 0, 0, e, f, g, h] ++ body)), e, f, g, h] := by
  rw [computeChecksum]
  generalize hsum : sumBody body ((header.type.toUInt32 <<< 8) + header.code.toUInt32 +
    header.identifier.toUInt32 + header.sequenceNumber.toUInt32) = sum
  have htotal : sum.toNat = (words ([a, b, 0, 0, e, f, g, h] ++ body)).sum := by
    have hwords := sum_words_le body
    have ha := a.toNat_lt
    have hb := b.toNat_lt
    have he : header.identifier.toNat = e.toNat * 2 ^ 8 + f.toNat := by
      rw [identifier, toNat_decode, hrep]
      rfl
    have hg : header.sequenceNumber.toNat = g.toNat * 2 ^ 8 + h.toNat := by
      rw [sequenceNumber, toNat_decode, hrep]
      rfl
    have hid := header.identifier.toNat_lt
    have hseq := header.sequenceNumber.toNat_lt
    have htype : header.type = a := by rw [type, hrep]; rfl
    have hcode : header.code = b := by rw [code, hrep]; rfl
    have hzero : UInt8.toNat 0 = 0 := rfl
    rw [← hsum, toNat_sumBody, UInt32.toNat_add, UInt32.toNat_add, UInt32.toNat_add, toNat_shift,
      UInt8.toNat_toUInt32, UInt16.toNat_toUInt32, UInt16.toNat_toUInt32, htype, hcode,
      words_append_eight, List.sum_append, List.sum_cons, List.sum_cons, List.sum_cons,
      List.sum_singleton, ← he, ← hg, hzero]
    omega
  have hchecksum : (~~~(foldSum sum)).toUInt16.toUInt8 =
      UInt8.ofNat (rfcChecksum ([a, b, 0, 0, e, f, g, h] ++ body)) := by
    have hfold := toNat_foldSum sum
    have hreduces := OnesComplement.reduces_fold_fold (B := 2 ^ 16) sum.toNat_lt
    rw [htotal] at hfold hreduces
    rw [hreduces.unique (OnesComplement.reduces_sum (words_lt _) (by decide))] at hfold
    have hlt := (foldSum sum).toNat_lt
    apply UInt8.toNat_inj.mp
    rw [UInt16.toNat_toUInt8, UInt32.toNat_toUInt16, UInt32.toNat_not, UInt8.toNat_ofNat',
      rfcChecksum, ← hfold, show UInt32.size = 2 ^ 32 from rfl]
    omega
  rw [setChecksum, encode_low, hchecksum, rep_set, rep_set, hrep]
  rfl

/-- The setters leave the low bytes of both numbers. -/
theorem rep_echo (header : ICMPHeader) (type code : ICMPType) (identifier sequenceNumber : UInt16)
    {body : List UInt8} (hbody : body.length < 65508) :
    (header.echo type code identifier sequenceNumber body).rep =
      [type, code, 0, UInt8.ofNat (rfcChecksum ([type, code, 0, 0, 0, identifier.toUInt8, 0,
        sequenceNumber.toUInt8] ++ body)), 0, identifier.toUInt8, 0, sequenceNumber.toUInt8] := by
  obtain ⟨a, b, c, d, e, f, g, h, hrep⟩ := header.exists_bytes
  rw [echo]
  apply rep_computeChecksum (c := c) (d := d) _ hbody
  rw [setSequenceNumber, encode_low, setIdentifier, encode_low, setCode, setType]
  simp only [rep_set, hrep]
  rfl

/-- The byte that is kept makes the sum complete where it is the whole checksum. -/
theorem sum_checksum_iff (a b e f g h : UInt8) (body : List UInt8) :
    OnesComplement.sum (2 ^ 16) (words ([a, b, 0, UInt8.ofNat (rfcChecksum
        ([a, b, 0, 0, e, f, g, h] ++ body)), e, f, g, h] ++ body)) = 2 ^ 16 - 1 ↔
      rfcChecksum ([a, b, 0, 0, e, f, g, h] ++ body) < 256 := by
  have hclear := OnesComplement.reduces_sum (words_lt ([a, b, 0, 0, e, f, g, h] ++ body))
    (by decide)
  rw [rfcChecksum]
  generalize OnesComplement.sum (2 ^ 16) (words ([a, b, 0, 0, e, f, g, h] ++ body)) = s at hclear ⊢
  generalize hc : UInt8.ofNat (2 ^ 16 - 1 - s) = c
  have hbyte : c.toNat = (2 ^ 16 - 1 - s) % 2 ^ 8 := by
    rw [← hc, UInt8.toNat_ofNat']
  have hsum : (words ([a, b, 0, c, e, f, g, h] ++ body)).sum =
      (words ([a, b, 0, 0, e, f, g, h] ++ body)).sum + c.toNat := by
    have hzero : UInt8.toNat 0 = 0 := rfl
    rw [words_append_eight, words_append_eight, List.sum_append, List.sum_append]
    simp only [List.sum_cons, List.sum_nil, hzero]
    omega
  have hfull := OnesComplement.reduces_sum (words_lt ([a, b, 0, c, e, f, g, h] ++ body))
    (by decide)
  rw [hfull.eq_max_iff (by decide), hsum, ← (hclear.modEq.add_right c.toNat).dvd_iff dvd_rfl]
  have hlt := hclear.lt
  have hnonzero := hclear.zero
  omega

/-- What the packet has to be for its receiver. -/
structure ValidPing (identifier sequenceNumber : UInt16) (body : List UInt8)
    (header : ICMPHeader) : Prop where
  identifier_eq : header.identifier = identifier
  sequenceNumber_eq : header.sequenceNumber = sequenceNumber
  sum_eq : OnesComplement.sum (2 ^ 16) (words (header.rep ++ body)) = 2 ^ 16 - 1

/-- The bytes of the header that is meant, with a zero for the checksum. -/
def unsummed (type code : ICMPType) (identifier sequenceNumber : UInt16) : List UInt8 :=
  [type, code, 0, 0, (identifier >>> 8).toUInt8, identifier.toUInt8, (sequenceNumber >>> 8).toUInt8,
    sequenceNumber.toUInt8]

/-- Both numbers and the checksum that is needed lie in one byte. -/
structure Small (type code : ICMPType) (identifier sequenceNumber : UInt16)
    (body : List UInt8) : Prop where
  identifier_lt : identifier < 256
  sequenceNumber_lt : sequenceNumber < 256
  checksum_lt : rfcChecksum (unsummed type code identifier sequenceNumber ++ body) < 256

/-- The getters give a number back where no high byte was lost. -/
theorem decode_low_iff {header : ICMPHeader} {a b : ℕ} {n : UInt16}
    (ha : header.rep.getD a 0 = 0) (hb : header.rep.getD b 0 = n.toUInt8) :
    header.decode a b = n ↔ n < 256 := by
  have hzero : UInt8.toNat 0 = 0 := rfl
  have hlimit : UInt16.toNat 256 = 2 ^ 8 := rfl
  rw [← UInt16.toNat_inj, toNat_decode, ha, hb, hzero, Nat.zero_mul, Nat.zero_add,
    UInt16.toNat_toUInt8, UInt16.lt_iff_toNat_lt, hlimit, Nat.mod_eq_iff_lt (by decide)]

theorem validPing_echo_iff (header : ICMPHeader) (type code : ICMPType)
    (identifier sequenceNumber : UInt16) (body : List UInt8) (hbody : body.length < 65508) :
    ValidPing identifier sequenceNumber body
        (header.echo type code identifier sequenceNumber body) ↔
      Small type code identifier sequenceNumber body := by
  have hrep := rep_echo header type code identifier sequenceNumber hbody
  generalize header.echo type code identifier sequenceNumber body = packet at hrep ⊢
  have hidentifier : packet.identifier = identifier ↔ identifier < 256 := by
    apply decode_low_iff <;> rw [hrep] <;> rfl
  have hsequence : packet.sequenceNumber = sequenceNumber ↔ sequenceNumber < 256 := by
    apply decode_low_iff <;> rw [hrep] <;> rfl
  constructor
  · rintro ⟨hid, hseq, hsum⟩
    rw [hidentifier] at hid
    rw [hsequence] at hseq
    refine ⟨hid, hseq, ?_⟩
    rw [hrep, sum_checksum_iff] at hsum
    rwa [unsummed, high_eq_zero hid, high_eq_zero hseq]
  · rintro ⟨hid, hseq, hchecksum⟩
    refine ⟨hidentifier.mpr hid, hsequence.mpr hseq, ?_⟩
    rw [unsummed, high_eq_zero hid, high_eq_zero hseq] at hchecksum
    rw [hrep, sum_checksum_iff]
    exact hchecksum

theorem validPing_echo_iff_hello :
    (Text.lit "Hello!").length < 65508 ∧
      (ValidPing 1 2 (Text.lit "Hello!") (init.echo 8 0 1 2 (Text.lit "Hello!")) ↔
        Small 8 0 1 2 (Text.lit "Hello!")) :=
  ⟨by decide, validPing_echo_iff init 8 0 1 2 (Text.lit "Hello!") (by decide)⟩

/-- The identifier 256 is read back as zero. -/
theorem not_validPing_echo :
    ¬∀ (header : ICMPHeader) (type code : ICMPType) (identifier sequenceNumber : UInt16)
      (body : List UInt8), body.length < 65508 →
      ValidPing identifier sequenceNumber body
        (header.echo type code identifier sequenceNumber body) := by
  intro hclaim
  have hidentifier := (hclaim init 8 0 256 1 [] (by decide)).identifier_eq
  exact absurd hidentifier (by decide)

end ICMPHeader

end SRCommon
