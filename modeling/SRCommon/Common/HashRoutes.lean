import Mathlib.Data.List.GetD
import Mathlib.Data.List.TakeDrop
import SRCommon.Common.Hashes
import SRCommon.Lib.LittleEndian

/-!
# The ways to hash a string

A literal is hashed by templates that unfold one instance for each character,
other strings by loops. `char` is signed, and a literal ends with a zero byte.
-/

namespace SRCommon

namespace Hash

/-! ## FNV-1a -/

/-- `Encoder<S, N>`. The literal has `S` characters. -/
def Encoder.encodeChar (text : Text) : ℕ → UInt64 → UInt64
  | 0 => fun hash => hash
  | N + 1 => fun hash =>
      Encoder.encodeChar text N (Hash.encodeChar hash (text.getD (text.length - (N + 1) - 1) 0))

end Hash

def computeHashConstexpr (text : Text) : UInt64 :=
  Hash.Encoder.encodeChar text (text.length - 1) Hash.initialHash

def fnv1aAppendValue (value keyValue : UInt64) : UInt64 :=
  fnv1aAppendBytes value (LittleEndian.toBytes 8 keyValue.toNat)

/-- `CalculateHash` of a `std::string` and of a `std::string_view`. -/
def calculateHash (value : Text) : UInt64 := hashArrayRepresentation value

/-- `CalculateHash` of a pointer takes the bytes of the address, whatever the pointer is to. -/
def calculateHashPointer (value : UInt64) : UInt64 := fnv1aAppendValue fnvOffsetBasis value

/-- What all of them are to give, as numbers. -/
def fnv1a (bytes : Text) : ℕ :=
  bytes.foldl (fun hash byte => (hash ^^^ byte.toNat) * 0x100000001b3 % 2 ^ 64) 0xcbf29ce484222325

namespace Hash

theorem encodeChar_eq (text : Text) (N : ℕ) (h : N < text.length) (hash : UInt64) :
    Encoder.encodeChar text N hash =
      ((text.take (text.length - 1)).drop (text.length - 1 - N)).foldl encodeChar hash := by
  induction N generalizing hash with
  | zero =>
      rw [Nat.sub_zero, List.drop_eq_nil_of_le (List.length_take_le _ _)]
      rfl
  | succ N ih =>
      have hlt : text.length - 1 - (N + 1) < (text.take (text.length - 1)).length := by
        rw [List.length_take]
        omega
      have hnext : text.length - 1 - (N + 1) + 1 = text.length - 1 - N := by omega
      have hindex : text.length - (N + 1) - 1 = text.length - 1 - (N + 1) := by omega
      have hstep : Encoder.encodeChar text (N + 1) hash = Encoder.encodeChar text N
          (encodeChar hash (text.getD (text.length - (N + 1) - 1) 0)) := by rw [Encoder.encodeChar]
      rw [hstep, ih (by omega), List.drop_eq_getElem_cons hlt, List.foldl_cons, hnext,
        hindex, List.getElem_take, List.getD_eq_getElem]

end Hash

theorem computeHashConstexpr_literal (s : Text) : computeHashConstexpr (s ++ [0]) = computeHash s := by
  have hlength : (s ++ [(0 : UInt8)]).length = s.length + 1 := List.length_append
  rw [computeHashConstexpr, Hash.encodeChar_eq _ _ (by omega), hlength, Nat.add_sub_cancel,
    Nat.sub_self, List.drop_zero, List.take_left]
  rfl

theorem calculateHash_eq (s : Text) : calculateHash s = computeHash s := rfl

theorem toNat_encodeChar (hash : UInt64) (c : UInt8) :
    (Hash.encodeChar hash c).toNat = (hash.toNat ^^^ c.toNat) * 0x100000001b3 % 2 ^ 64 := by
  rw [Hash.encodeChar, UInt64.toNat_mul, UInt64.toNat_xor, UInt8.toNat_toUInt64]
  rfl

theorem toNat_computeHash (s : Text) : (computeHash s).toNat = fnv1a s := by
  have hfold (hash : UInt64) : (s.foldl Hash.encodeChar hash).toNat = s.foldl
      (fun hash byte => (hash ^^^ byte.toNat) * 0x100000001b3 % 2 ^ 64) hash.toNat := by
    induction s generalizing hash with
    | nil => rfl
    | cons c s ih => rw [List.foldl_cons, List.foldl_cons, ih, toNat_encodeChar]
  exact hfold Hash.initialHash

theorem cstr_literal {s : Text} (h : 0 ∉ s) : (s ++ [0]).cstr = s := by
  rw [Text.cstr, List.takeWhile_append_of_pos]
  · simp
  · intro c hc
    simpa using ne_of_mem_of_not_mem hc h

/-! ## CRC-32 -/

namespace Hash

def crcTable : Array UInt32 := #[
    0x00000000, 0x77073096, 0xee0e612c, 0x990951ba, 0x076dc419, 0x706af48f, 0xe963a535,
    0x9e6495a3, 0x0edb8832, 0x79dcb8a4, 0xe0d5e91e, 0x97d2d988, 0x09b64c2b, 0x7eb17cbd,
    0xe7b82d07, 0x90bf1d91, 0x1db71064, 0x6ab020f2, 0xf3b97148, 0x84be41de, 0x1adad47d,
    0x6ddde4eb, 0xf4d4b551, 0x83d385c7, 0x136c9856, 0x646ba8c0, 0xfd62f97a, 0x8a65c9ec,
    0x14015c4f, 0x63066cd9, 0xfa0f3d63, 0x8d080df5, 0x3b6e20c8, 0x4c69105e, 0xd56041e4,
    0xa2677172, 0x3c03e4d1, 0x4b04d447, 0xd20d85fd, 0xa50ab56b, 0x35b5a8fa, 0x42b2986c,
    0xdbbbc9d6, 0xacbcf940, 0x32d86ce3, 0x45df5c75, 0xdcd60dcf, 0xabd13d59, 0x26d930ac,
    0x51de003a, 0xc8d75180, 0xbfd06116, 0x21b4f4b5, 0x56b3c423, 0xcfba9599, 0xb8bda50f,
    0x2802b89e, 0x5f058808, 0xc60cd9b2, 0xb10be924, 0x2f6f7c87, 0x58684c11, 0xc1611dab,
    0xb6662d3d, 0x76dc4190, 0x01db7106, 0x98d220bc, 0xefd5102a, 0x71b18589, 0x06b6b51f,
    0x9fbfe4a5, 0xe8b8d433, 0x7807c9a2, 0x0f00f934, 0x9609a88e, 0xe10e9818, 0x7f6a0dbb,
    0x086d3d2d, 0x91646c97, 0xe6635c01, 0x6b6b51f4, 0x1c6c6162, 0x856530d8, 0xf262004e,
    0x6c0695ed, 0x1b01a57b, 0x8208f4c1, 0xf50fc457, 0x65b0d9c6, 0x12b7e950, 0x8bbeb8ea,
    0xfcb9887c, 0x62dd1ddf, 0x15da2d49, 0x8cd37cf3, 0xfbd44c65, 0x4db26158, 0x3ab551ce,
    0xa3bc0074, 0xd4bb30e2, 0x4adfa541, 0x3dd895d7, 0xa4d1c46d, 0xd3d6f4fb, 0x4369e96a,
    0x346ed9fc, 0xad678846, 0xda60b8d0, 0x44042d73, 0x33031de5, 0xaa0a4c5f, 0xdd0d7cc9,
    0x5005713c, 0x270241aa, 0xbe0b1010, 0xc90c2086, 0x5768b525, 0x206f85b3, 0xb966d409,
    0xce61e49f, 0x5edef90e, 0x29d9c998, 0xb0d09822, 0xc7d7a8b4, 0x59b33d17, 0x2eb40d81,
    0xb7bd5c3b, 0xc0ba6cad, 0xedb88320, 0x9abfb3b6, 0x03b6e20c, 0x74b1d29a, 0xead54739,
    0x9dd277af, 0x04db2615, 0x73dc1683, 0xe3630b12, 0x94643b84, 0x0d6d6a3e, 0x7a6a5aa8,
    0xe40ecf0b, 0x9309ff9d, 0x0a00ae27, 0x7d079eb1, 0xf00f9344, 0x8708a3d2, 0x1e01f268,
    0x6906c2fe, 0xf762575d, 0x806567cb, 0x196c3671, 0x6e6b06e7, 0xfed41b76, 0x89d32be0,
    0x10da7a5a, 0x67dd4acc, 0xf9b9df6f, 0x8ebeeff9, 0x17b7be43, 0x60b08ed5, 0xd6d6a3e8,
    0xa1d1937e, 0x38d8c2c4, 0x4fdff252, 0xd1bb67f1, 0xa6bc5767, 0x3fb506dd, 0x48b2364b,
    0xd80d2bda, 0xaf0a1b4c, 0x36034af6, 0x41047a60, 0xdf60efc3, 0xa867df55, 0x316e8eef,
    0x4669be79, 0xcb61b38c, 0xbc66831a, 0x256fd2a0, 0x5268e236, 0xcc0c7795, 0xbb0b4703,
    0x220216b9, 0x5505262f, 0xc5ba3bbe, 0xb2bd0b28, 0x2bb45a92, 0x5cb36a04, 0xc2d7ffa7,
    0xb5d0cf31, 0x2cd99e8b, 0x5bdeae1d, 0x9b64c2b0, 0xec63f226, 0x756aa39c, 0x026d930a,
    0x9c0906a9, 0xeb0e363f, 0x72076785, 0x05005713, 0x95bf4a82, 0xe2b87a14, 0x7bb12bae,
    0x0cb61b38, 0x92d28e9b, 0xe5d5be0d, 0x7cdcefb7, 0x0bdbdf21, 0x86d3d2d4, 0xf1d4e242,
    0x68ddb3f8, 0x1fda836e, 0x81be16cd, 0xf6b9265b, 0x6fb077e1, 0x18b74777, 0x88085ae6,
    0xff0f6a70, 0x66063bca, 0x11010b5c, 0x8f659eff, 0xf862ae69, 0x616bffd3, 0x166ccf45,
    0xa00ae278, 0xd70dd2ee, 0x4e048354, 0x3903b3c2, 0xa7672661, 0xd06016f7, 0x4969474d,
    0x3e6e77db, 0xaed16a4a, 0xd9d65adc, 0x40df0b66, 0x37d83bf0, 0xa9bcae53, 0xdebb9ec5,
    0x47b2cf7f, 0x30b5ffe9, 0xbdbdf21c, 0xcabac28a, 0x53b39330, 0x24b4a3a6, 0xbad03605,
    0xcdd70693, 0x54de5729, 0x23d967bf, 0xb3667a2e, 0xc4614ab8, 0x5d681b02, 0x2a6f2b94,
    0xb40bbe37, 0xc30c8ea1, 0x5a05df1b, 0x2d02ef8d]

/-- A `char` as an `unsigned int`. -/
def promote (c : UInt8) : UInt32 := c.toInt8.toInt32.toUInt32

/-- The table is read where the lowest byte says. -/
def crcEntry (x : UInt32) : UInt32 := crcTable.getD (x &&& 0xFF).toNat 0

/-- `MM<size, idx>`. -/
def MM.crc32 (size idx : ℕ) (str : Text) (prevCrc : UInt32) : UInt32 :=
  if idx < size then
    MM.crc32 size (idx + 1) str ((prevCrc >>> 8) ^^^ crcEntry (prevCrc ^^^ promote (str.getD idx 0)))
  else prevCrc ^^^ 0xFFFFFFFF
  termination_by size - idx

def crc32Loop (crc : UInt32) : Text → UInt32
  | [] => crc
  | c :: in_ =>
      if c = 0 then crc else crc32Loop (crcEntry (crc ^^^ promote c) ^^^ (crc >>> 8)) in_

def crc32 (in_ : Text) : UInt32 := ~~~ crc32Loop 0xFFFFFFFF in_

/-- `SR_COMPILE_TIME_CRC32_STR`. -/
def compileTimeCrc32 (text : Text) : UInt32 := MM.crc32 (text.length - 1) 0 text 0xFFFFFFFF

/-- One bit of the division by the polynomial of CRC-32, lowest bit first. -/
def crcBit (x : UInt32) : UInt32 := if x &&& 1 = 1 then (x >>> 1) ^^^ 0xEDB88320 else x >>> 1

theorem crcTable_eq :
    crcTable.toList = (List.range 256).map fun i => crcBit^[8] (UInt32.ofNat i) := by
  decide +kernel

theorem xor_allOnes (x : UInt32) : x ^^^ 0xFFFFFFFF = ~~~ x := by
  apply UInt32.toBitVec_inj.mp
  exact BitVec.xor_allOnes

theorem mm_crc32_append (pre s : Text) (h : 0 ∉ s) (prevCrc : UInt32) :
    MM.crc32 (pre.length + s.length) pre.length (pre ++ (s ++ [0])) prevCrc =
      ~~~ crc32Loop prevCrc (s ++ [0]) := by
  induction s generalizing pre prevCrc with
  | nil =>
      rw [MM.crc32, List.length_nil, Nat.add_zero, if_neg (Nat.lt_irrefl _), xor_allOnes]
      rfl
  | cons c s ih =>
      have hc : c ≠ 0 := fun hc => h (hc ▸ List.mem_cons_self ..)
      have hs : 0 ∉ s := fun hs => h (List.mem_cons_of_mem c hs)
      have hread : (pre ++ (c :: s ++ [0])).getD pre.length 0 = c := by
        rw [List.getD_append_right _ _ _ _ (Nat.le_refl _), Nat.sub_self]
        rfl
      have hlength : (pre ++ [c]).length = pre.length + 1 := List.length_append
      have hsize : pre.length + (c :: s).length = (pre ++ [c]).length + s.length := by
        rw [hlength, List.length_cons]
        omega
      have htext : pre ++ (c :: s ++ [0]) = pre ++ [c] ++ (s ++ [0]) := by simp
      have hrest := ih (pre ++ [c]) hs ((prevCrc >>> 8) ^^^ crcEntry (prevCrc ^^^ promote c))
      rw [MM.crc32, if_pos (by simp), hread, hsize, htext, ← hlength, hrest, List.cons_append,
        crc32Loop, if_neg hc, UInt32.xor_comm]

end Hash

/-- Every way to hash a string with no zero byte gives its FNV-1a value, a C-string as soon as it is
made a string or a view, and both ways to its CRC-32 agree. -/
theorem hashes_agree (s : Text) (h : 0 ∉ s) :
    (computeHash s).toNat = fnv1a s ∧ computeHashConstexpr (s ++ [0]) = computeHash s ∧
      computeHashCStr (s ++ [0]) = computeHash s ∧ calculateHash s = computeHash s ∧
      calculateHash (s ++ [0]).cstr = computeHash s ∧
      Hash.compileTimeCrc32 (s ++ [0]) = Hash.crc32 (s ++ [0]) := by
  refine ⟨toNat_computeHash s, computeHashConstexpr_literal s, ?_, calculateHash_eq s, ?_, ?_⟩
  · rw [computeHashCStr, cstr_literal h]
  · rw [cstr_literal h, calculateHash_eq]
  · have hlength : (s ++ [(0 : UInt8)]).length - 1 = s.length := by simp
    have hcrc := Hash.mm_crc32_append [] s h 0xFFFFFFFF
    rw [Hash.compileTimeCrc32, hlength, Hash.crc32, ← hcrc, List.nil_append, List.length_nil,
      Nat.zero_add]

theorem hashes_agree_e_acute :
    (computeHash [0xC3, 0xA9]).toNat = fnv1a [0xC3, 0xA9] ∧
      Hash.compileTimeCrc32 [0xC3, 0xA9, 0] = Hash.crc32 [0xC3, 0xA9, 0] :=
  ⟨(hashes_agree [0xC3, 0xA9] (by decide)).1, (hashes_agree [0xC3, 0xA9] (by decide)).2.2.2.2.2⟩

/-- The hash of a `const char*` is one of the address it holds. -/
theorem not_calculateHashPointer :
    ¬ ∀ (s : Text) (ptr : UInt64), 0 ∉ s → calculateHashPointer ptr = computeHash s := by
  intro h
  have hempty := h [] 0x1000 (by decide)
  exact absurd hempty (by decide +kernel)

end SRCommon
