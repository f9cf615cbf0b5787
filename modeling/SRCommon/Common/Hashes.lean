import SRCommon.Lib.ByteText

/-!
# String hashes

`Hashes.h` hashes strings with 64-bit FNV-1a. The hash is what ids are
compared by.
-/

namespace SRCommon

namespace Hash

def initialHash : UInt64 := 0xcbf29ce484222325

def magicPrime : UInt64 := 0x100000001b3

def encodeChar (hash : UInt64) (c : UInt8) : UInt64 := (hash ^^^ c.toUInt64) * magicPrime

end Hash

def fnvOffsetBasis : UInt64 := 14695981039346656037

def fnvPrime : UInt64 := 1099511628211

def fnv1aAppendBytes (value : UInt64) (bytes : Text) : UInt64 :=
  bytes.foldl (fun value byte => (value ^^^ byte.toUInt64) * fnvPrime) value

/-- `SR_HASH_STR` and `SR_HASH_STR_VIEW`: every byte counts, zeros as well. -/
def hashArrayRepresentation (bytes : Text) : UInt64 := fnv1aAppendBytes fnvOffsetBasis bytes

/-- `ComputeHash(std::string_view)`. -/
def computeHash (text : Text) : UInt64 := text.foldl Hash.encodeChar Hash.initialHash

/-- `ComputeHash(const char*)` stops at the first zero byte. -/
def computeHashCStr (text : Text) : UInt64 := computeHash text.cstr

def combineTwoHashes (hash1 hash2 : UInt64) : UInt64 :=
  hash2 ^^^ (hash1 + (0x9e3779b9 : UInt64) + (hash2 <<< (6 : UInt64)) + (hash2 >>> (2 : UInt64)))

end SRCommon
