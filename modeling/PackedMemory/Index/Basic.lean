import PackedMemory.Slot

/-!
# Order indexes

An order index maps the least key of every segment that holds elements to that
segment.  The largest of these keys that does not exceed a given key names the
only segment in which the given key can be stored.

The class asks for operations and no laws: an array works with any index, and
only with a lawful one does it find everything that it stores.
-/

namespace PackedMemory

/-- The least key of a segment, with the number of the segment. -/
abbrev Leader := Key × Nat

class OrderIndex (ι : Type) where
  empty : ι
  /-- The segment of the largest key up to the given one, or segment 0. -/
  predecessor : ι → Key → Nat
  /-- Adds a key, or moves it to another segment. -/
  insert : ι → Key → Nat → ι
  /-- Removes a key, and gives the segment it stood for. -/
  removeAny : ι → Key → Option Nat × ι
  /-- Replaces a key by another one that stands for the same segment. -/
  update : ι → Key → Key → ι := fun index old new =>
    match removeAny index old with
    | (some segment, rest) => insert rest new segment
    | (none, rest) => rest
  clear : ι → ι
  size : ι → Nat
  /-- All keys with their segments, in ascending order of the keys. -/
  entries : ι → List Leader
  /-- Bytes taken by the entries. -/
  memory : ι → Nat

namespace OrderIndex

variable {ι : Type} [OrderIndex ι]

def insertAll (index : ι) (leaders : List Leader) : ι :=
  leaders.foldl (fun index leader => insert index leader.1 leader.2) index

def removeAll (index : ι) (keys : List Key) : ι :=
  keys.foldl (fun index key => (removeAny index key).2) index

@[simp] theorem insertAll_nil (index : ι) : insertAll index [] = index := rfl

@[simp] theorem insertAll_cons (index : ι) (leader : Leader)
    (leaders : List Leader) :
    insertAll index (leader :: leaders) =
      insertAll (insert index leader.1 leader.2) leaders := rfl

@[simp] theorem removeAll_nil (index : ι) : removeAll index [] = index := rfl

@[simp] theorem removeAll_cons (index : ι) (key : Key) (keys : List Key) :
    removeAll index (key :: keys) =
      removeAll (removeAny index key).2 keys := rfl

end OrderIndex

end PackedMemory
