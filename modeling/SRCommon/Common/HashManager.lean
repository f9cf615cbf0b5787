import Mathlib.Logic.Function.Basic
import SRCommon.Common.Hashes
import SRCommon.Lib.PartialRun

/-!
# The table of interned strings

`HashManager` keeps a text for each hash. Its three overloads hash the string
that they are given and register its text by ways of their own. A call holds
the mutex of the manager from its start to its end.
-/

namespace SRCommon

structure StringHashInfo where
  data : Text
  hash : UInt64
  size : ℕ

structure HashManager where
  strings : UInt64 → Option StringHashInfo := fun _ => none

/-- What a `const char*` points to. -/
structure CString where
  memory : Text
  terminated : 0 ∈ memory

/-- `memory` is all that can be read from `data()` on. The view may end before it does. -/
structure StringView where
  memory : Text
  size : ℕ
  size_le : size ≤ memory.length

def CString.text (str : CString) : Text := str.memory.cstr

def StringView.text (str : StringView) : Text := str.memory.take str.size

/-- The constructor of `std::string` from a `const char*` reads up to a zero byte. -/
def stringOfData (memory : Text) : Option Text :=
  if 0 ∈ memory then some memory.cstr else none

namespace HashManager

variable (m : HashManager)

def hashToString (hash : UInt64) : Text := (m.strings hash).elim [] StringHashInfo.data

/-- `m_strings.insert` leaves an entry that is there as it is. -/
def register (str : Text) (hash : UInt64) : StringHashInfo × HashManager :=
  let info := { data := str, hash, size := str.length }
  (info, { strings := Function.update m.strings hash (some ((m.strings hash).getD info)) })

def getOrAddInfoString (str : Text) : StringHashInfo × HashManager :=
  let hash := hashArrayRepresentation str
  (m.strings hash).elim (m.register str hash) fun info => (info, m)

def getOrAddInfoView (str : StringView) : Option (StringHashInfo × HashManager) :=
  let hash := hashArrayRepresentation str.text
  (m.strings hash).elim ((stringOfData str.memory).map fun data => m.register data hash)
    fun info => some (info, m)

def getOrAddInfoCString (str : CString) : StringHashInfo × HashManager :=
  let hash := hashArrayRepresentation str.text
  (m.strings hash).elim (m.register str.text hash) fun info => (info, m)

end HashManager

/-- A string that is added, by the overload that takes it. -/
inductive AddedString where
  | string (str : Text)
  | cString (str : CString)
  | view (str : StringView)

namespace AddedString

def text : AddedString → Text
  | .string str => str
  | .cString str => str.text
  | .view str => str.text

def hash (s : AddedString) : UInt64 := hashArrayRepresentation s.text

/-- The text that is registered for a string, if its memory can be read that far. -/
def registered : AddedString → Option Text
  | .string str => some str
  | .cString str => some str.text
  | .view str => stringOfData str.memory

end AddedString

namespace HashManager

variable (m : HashManager)

def addHash (m : HashManager) : AddedString → Option (HashManager × UInt64)
  | .string str =>
      let r := m.getOrAddInfoString str
      some (r.2, r.1.hash)
  | .cString str =>
      let r := m.getOrAddInfoCString str
      some (r.2, r.1.hash)
  | .view str => (m.getOrAddInfoView str).map fun r => (r.2, r.1.hash)

theorem addHash_of_some {s : AddedString} {info : StringHashInfo} (h : m.strings s.hash = some info) :
    m.addHash s = some (m, info.hash) := by
  cases s with
  | string str =>
      change m.strings (hashArrayRepresentation str) = some info at h
      rw [addHash, getOrAddInfoString, h]
      rfl
  | cString str =>
      change m.strings (hashArrayRepresentation str.text) = some info at h
      rw [addHash, getOrAddInfoCString, h]
      rfl
  | view str =>
      change m.strings (hashArrayRepresentation str.text) = some info at h
      rw [addHash, getOrAddInfoView, h]
      rfl

/-- The table with a new entry. -/
def withEntry (hash : UInt64) (str : Text) : HashManager where
  strings := Function.update m.strings hash (some { data := str, hash, size := str.length })

theorem register_of_none {hash : UInt64} (h : m.strings hash = none) (str : Text) :
    (m.register str hash).2 = m.withEntry hash str := by
  rw [register, withEntry, h]
  rfl

theorem addHash_of_none {s : AddedString} (h : m.strings s.hash = none) :
    m.addHash s = s.registered.map fun str => (m.withEntry s.hash str, s.hash) := by
  cases s with
  | string str =>
      change m.strings (hashArrayRepresentation str) = none at h
      rw [addHash, getOrAddInfoString, h]
      exact congrArg (fun t => some (t, hashArrayRepresentation str)) (m.register_of_none h str)
  | cString str =>
      change m.strings (hashArrayRepresentation str.text) = none at h
      rw [addHash, getOrAddInfoCString, h]
      exact congrArg (fun t => some (t, hashArrayRepresentation str.text))
        (m.register_of_none h str.text)
  | view str =>
      change m.strings (hashArrayRepresentation str.text) = none at h
      rw [addHash, getOrAddInfoView, h, Option.elim_none, Option.map_map]
      refine congrArg (fun f => Option.map f _) (funext fun data => ?_)
      exact congrArg (fun t => (t, hashArrayRepresentation str.text)) (m.register_of_none h data)

end HashManager

end SRCommon
