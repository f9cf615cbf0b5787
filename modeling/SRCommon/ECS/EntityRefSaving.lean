import SRCommon.ECS.EntityRef
import SRCommon.TypeTraits.PropertyBlocks
import SRCommon.Types.MarshalRoundTrip

/-!
# Saved references

The values that `Save` of a reference writes, and what `Load` makes of them. A
long name is cut where its length is counted, and so is a long path.
-/

namespace SRCommon

open LittleEndian MarshalUtils

namespace Marshal

/-- A number as a value of its type. -/
def number (t : CppType) (n : ℕ) : Item .lp64 :=
  haveI : NeZero (t.range .lp64) := ⟨(t.range_pos .lp64).ne'⟩
  ⟨.scalar t, (Fin.ofNat (t.range .lp64) n : t.Value .lp64)⟩

def string (value : Text) : Item .lp64 := ⟨.string, value⟩

variable {s : Marshal} {rest : List UInt8} {t : CppType} {n width : ℕ}

theorem bytes_number (ht : t.isNumber = true) (hwidth : t.sizeOf .lp64 = width)
    (hn : n < t.range .lp64) : (number t n).bytes = toBytes width n := by
  subst hwidth
  refine (if_pos ht).trans ?_
  rw [CppType.bytes]
  exact congrArg (toBytes _) (Nat.mod_eq_of_lt hn)

theorem size_number (ht : t.isNumber = true) : (number t n).size = t.sizeOf .lp64 :=
  (congrArg List.length (if_pos ht)).trans (length_bytes _)

theorem readNumber_number (ht : t.isNumber = true) (hn : n < t.range .lp64)
    (h : Stream.Ahead s ((number t n).bytes ++ rest)) :
    ∃ s', s.readNumber t = some (n, s') ∧ Stream.Ahead s' rest := by
  rw [bytes_number ht rfl hn] at h
  exact readNumber_eq t _ n h ht rfl hn

end Marshal

namespace StoredItem

open Marshal

variable {s : Marshal} {rest : List UInt8} {path : List StoredItem}

/-- The values that are written. -/
def items (item : StoredItem) : List (Item .lp64) :=
  [number .unsignedShort item.index.toNat, number .unsignedChar item.action.toNat,
    string item.name]

/-- An item as it is read. -/
def asRead (item : StoredItem) : StoredItem := { item with name := counted item.name }

def Written (item : StoredItem) : Prop := item.name.length % 65536 < 32768

theorem write_eq_writeAll (item : StoredItem) : item.write s = writeAll s item.items := by
  refine Option.bind_congr fun s₁ _ => Option.bind_congr fun s₂ _ => ?_
  exact (Option.bind_fun_some _).symm

theorem foldlM_write : path.foldlM write s = writeAll s (path.flatMap items) := by
  induction path generalizing s with
  | nil => rfl
  | cons item path ih =>
      rw [List.foldlM_cons, List.flatMap_cons, writeAll, List.foldlM_append, write_eq_writeAll]
      exact Option.bind_congr fun s₁ _ => ih

theorem written_items {item : StoredItem} :
    (∀ value ∈ item.items, value.Written) ↔ item.Written := by
  rw [items, List.forall_mem_cons, List.forall_mem_cons, List.forall_mem_singleton]
  exact ⟨fun h => h.2.2, fun h => ⟨trivial, trivial, h⟩⟩

theorem written_flatMap :
    (∀ value ∈ path.flatMap items, value.Written) ↔ ∀ item ∈ path, item.Written := by
  constructor
  · intro h item hitem
    exact written_items.mp fun value hvalue => h value (List.mem_flatMap.mpr ⟨item, hitem, hvalue⟩)
  · intro h value hvalue
    obtain ⟨item, hitem, hvalue⟩ := List.mem_flatMap.mp hvalue
    exact written_items.mpr (h item hitem) value hvalue

theorem totalSize_items (item : StoredItem) : totalSize item.items = 5 + item.name.length := by
  have hstring : (string item.name).size = 2 + item.name.length * 1 := rfl
  rw [items, totalSize_cons, totalSize_cons, totalSize_cons, size_number rfl, size_number rfl,
    hstring]
  change 2 + (1 + (2 + item.name.length * 1 + 0)) = 5 + item.name.length
  omega

theorem totalSize_flatMap :
    totalSize (path.flatMap items) = (path.map fun item => 5 + item.name.length).sum := by
  induction path with
  | nil => rfl
  | cons item path ih =>
      rw [List.flatMap_cons, totalSize, List.map_append, List.sum_append]
      exact congrArg₂ (· + ·) item.totalSize_items ih

theorem read_eq {item : StoredItem} (hwritten : item.Written)
    (h : Stream.Ahead s (item.items.flatMap Item.bytes ++ rest)) :
    ∃ s', read s = some (item.asRead, s') ∧ Stream.Ahead s' rest := by
  rw [items, List.flatMap_cons, List.flatMap_cons, List.flatMap_singleton, List.append_assoc,
    List.append_assoc] at h
  obtain ⟨s₁, hs₁, h₁⟩ := readNumber_number rfl item.index.toNat_lt h
  obtain ⟨s₂, hs₂, h₂⟩ := readNumber_number rfl item.action.toNat_lt h₁
  obtain ⟨s₃, hs₃, h₃⟩ := loadShortStr_eq hwritten h₂
  refine ⟨s₃, ?_, h₃⟩
  rw [read, hs₁, Option.bind_some]
  dsimp only
  rw [hs₂, Option.bind_some]
  dsimp only
  rw [readString, hs₃, Option.map_some]
  dsimp only
  rw [UInt16.ofNat_toNat, UInt8.ofNat_toNat]
  rfl

/-- As many items are read as are asked for. -/
theorem readMany_eq {n : ℕ} (hn : n ≤ path.length) (hwritten : ∀ item ∈ path, item.Written)
    (h : Stream.Ahead s ((path.flatMap items).flatMap Item.bytes)) :
    ∃ s', readMany n s = some ((path.take n).map asRead, s') := by
  induction n generalizing s path with
  | zero => exact ⟨s, rfl⟩
  | succ n ih =>
      cases path with
      | nil => exact absurd hn (Nat.not_succ_le_zero n)
      | cons item path =>
          rw [List.flatMap_cons, List.flatMap_append] at h
          obtain ⟨s₁, hs₁, h₁⟩ := read_eq (hwritten item List.mem_cons_self) h
          obtain ⟨s₂, hs₂⟩ := ih (Nat.le_of_succ_le_succ hn)
            (fun item hitem => hwritten item (List.mem_cons_of_mem _ hitem)) h₁
          refine ⟨s₂, ?_⟩
          rw [readMany, hs₁, Option.bind_some]
          dsimp only
          rw [hs₂]
          rfl

end StoredItem

namespace EntityRef

open Marshal StoredItem

variable {ι κ : Type} {ref : EntityRef ι κ}

def items (ref : EntityRef ι κ) : List (Item .lp64) :=
  number .bool ref.relative.toNat :: number .unsignedShort ref.path.length ::
    ref.path.flatMap StoredItem.items

/-- The size of what is written. -/
def size (ref : EntityRef ι κ) : ℕ := 3 + (ref.path.map fun item => 5 + item.name.length).sum

theorem totalSize_items : totalSize ref.items = ref.size := by
  rw [items, totalSize_cons, totalSize_cons, size_number rfl, size_number rfl, totalSize_flatMap,
    ← Nat.add_assoc]
  rfl

theorem written_items :
    (∀ value ∈ ref.items, value.Written) ↔ ∀ item ∈ ref.path, item.Written := by
  rw [items, List.forall_mem_cons, List.forall_mem_cons, written_flatMap]
  exact ⟨fun h => h.2.2, fun h => ⟨trivial, trivial, h⟩⟩

theorem bytes_length : (number .unsignedShort ref.path.length).bytes =
    (number .unsignedShort (ref.path.length % 65536)).bytes := by
  have heq : number .unsignedShort ref.path.length =
      number .unsignedShort (ref.path.length % 65536) := by
    rw [number, number]
    refine congrArg (Sigma.mk _) (Fin.ext ?_)
    exact (Nat.mod_mod _ _).symm
  rw [heq]

/-- What is loaded from the bytes of another reference. -/
def loadedFrom (other ref : EntityRef ι κ) : EntityRef ι κ :=
  { other with
    relative := ref.relative
    path := (ref.path.take (ref.path.length % 65536)).map asRead }

theorem load_eq (other : EntityRef ι κ) {marshal : Marshal}
    (hwritten : ∀ item ∈ ref.path, item.Written)
    (h : Stream.Ahead marshal (ref.items.flatMap Item.bytes)) :
    ∃ marshal', other.load marshal = some (other.loadedFrom ref, marshal') := by
  rw [items, List.flatMap_cons, List.flatMap_cons, bytes_length] at h
  obtain ⟨s₁, hs₁, h₁⟩ := readNumber_number rfl (by cases ref.relative <;> decide) h
  obtain ⟨s₂, hs₂, h₂⟩ := readNumber_number rfl (Nat.mod_lt _ (by decide)) h₁
  obtain ⟨s₃, hs₃⟩ := readMany_eq (Nat.mod_le _ _) hwritten h₂
  refine ⟨s₃, ?_⟩
  rw [load, hs₁, Option.bind_some]
  dsimp only
  rw [hs₂, Option.bind_some]
  dsimp only
  rw [hs₃, Option.map_some, loadedFrom]
  cases ref.relative <;> rfl

variable [DecidableEq ι] [DecidableEq κ] {t : SceneTree ι κ StringAtom} {fuel : ℕ}

theorem save_eq {marshal : Marshal} : ref.save t fuel marshal =
    (ref.updatePath t fuel).bind fun ref => (writeAll marshal ref.items).map fun m => (ref, m) := by
  refine Option.bind_congr fun ref _ => ?_
  change _ = Option.map _ ((marshal.writeNumber .bool ref.relative.toNat).bind fun marshal =>
    (marshal.writeNumber .unsignedShort ref.path.length).bind fun marshal =>
      writeAll marshal (ref.path.flatMap StoredItem.items))
  rw [Option.map_bind]
  refine Option.bind_congr fun marshal _ => ?_
  rw [Function.comp_apply, Option.map_bind]
  refine Option.bind_congr fun marshal _ => ?_
  rw [Function.comp_apply, foldlM_write]

end EntityRef

end SRCommon
