import PackedMemory.Index.Basic

/-!
# A tree index

A binary search tree of keys.  Each node keeps the number of keys below it, and
a node whose sides differ too much in number is rotated, so that the depth stays
logarithmic.  Rotations keep the keys in order, which is all that looking up
relies on.
-/

namespace PackedMemory

inductive TreeIndex where
  | leaf
  | node (size : Nat) (left : TreeIndex) (leader : Leader) (right : TreeIndex)
deriving DecidableEq, Repr

namespace TreeIndex

def size : TreeIndex → Nat
  | leaf => 0
  | node size _ _ _ => size

def toList : TreeIndex → List Leader
  | leaf => []
  | node _ left leader right => left.toList ++ leader :: right.toList

def join (left : TreeIndex) (leader : Leader) (right : TreeIndex) : TreeIndex :=
  node (left.size + 1 + right.size) left leader right

@[simp] theorem toList_leaf : leaf.toList = [] := rfl

@[simp] theorem toList_node (size : Nat) (left : TreeIndex) (leader : Leader)
    (right : TreeIndex) :
    (node size left leader right).toList =
      left.toList ++ leader :: right.toList := rfl

@[simp] theorem toList_join (left : TreeIndex) (leader : Leader)
    (right : TreeIndex) :
    (join left leader right).toList =
      left.toList ++ leader :: right.toList := rfl

def rotateLeft (left : TreeIndex) (leader : Leader) :
    TreeIndex → TreeIndex
  | leaf => join left leader leaf
  | node _ (node middle inner top outer) next right =>
      if 2 * right.size < middle then
        join (join left leader inner) top (join outer next right)
      else
        join (join left leader (join inner top outer)) next right
  | node _ leaf next right => join (join left leader leaf) next right

def rotateRight (right : TreeIndex) (leader : Leader) :
    TreeIndex → TreeIndex
  | leaf => join leaf leader right
  | node _ left next (node middle outer top inner) =>
      if 2 * left.size < middle then
        join (join left next outer) top (join inner leader right)
      else
        join left next (join (join outer top inner) leader right)
  | node _ left next leaf => join left next (join leaf leader right)

/-- A side may hold at most about three times as many keys as the other. -/
def balance (left : TreeIndex) (leader : Leader) (right : TreeIndex) :
    TreeIndex :=
  if 3 * left.size + 2 < right.size then
    rotateLeft left leader right
  else if 3 * right.size + 2 < left.size then
    rotateRight right leader left
  else
    join left leader right

theorem toList_rotateLeft (left : TreeIndex) (leader : Leader)
    (right : TreeIndex) :
    (rotateLeft left leader right).toList =
      left.toList ++ leader :: right.toList := by
  unfold rotateLeft
  split
  · rfl
  · split <;> simp
  · simp

theorem toList_rotateRight (right : TreeIndex) (leader : Leader)
    (left : TreeIndex) :
    (rotateRight right leader left).toList =
      left.toList ++ leader :: right.toList := by
  unfold rotateRight
  split
  · rfl
  · split <;> simp
  · simp

@[simp] theorem toList_balance (left : TreeIndex) (leader : Leader)
    (right : TreeIndex) :
    (balance left leader right).toList =
      left.toList ++ leader :: right.toList := by
  unfold balance
  split
  · exact toList_rotateLeft left leader right
  · split
    · exact toList_rotateRight right leader left
    · rfl

/-- The last entry seen on the way down whose key does not exceed `key`. -/
def floor (key : Key) : TreeIndex → Nat → Nat
  | leaf, best => best
  | node _ left leader right, best =>
      if key < leader.1 then floor key left best else floor key right leader.2

def insert (key : Key) (segment : Nat) : TreeIndex → TreeIndex
  | leaf => join leaf (key, segment) leaf
  | node size left leader right =>
      if key < leader.1 then
        balance (insert key segment left) leader right
      else if leader.1 < key then
        balance left leader (insert key segment right)
      else
        node size left (key, segment) right

def splitLeast (left : TreeIndex) (leader : Leader) (right : TreeIndex) :
    Leader × TreeIndex :=
  match left with
  | leaf => (leader, right)
  | node _ inner first outer =>
      let (least, rest) := splitLeast inner first outer
      (least, balance rest leader right)

def append (left : TreeIndex) : TreeIndex → TreeIndex
  | leaf => left
  | node _ inner leader outer =>
      let (least, rest) := splitLeast inner leader outer
      balance left least rest

def find? (key : Key) : TreeIndex → Option Nat
  | leaf => none
  | node _ left leader right =>
      if key < leader.1 then find? key left
      else if leader.1 < key then find? key right
      else some leader.2

def erase (key : Key) : TreeIndex → TreeIndex
  | leaf => leaf
  | node _ left leader right =>
      if key < leader.1 then
        balance (erase key left) leader right
      else if leader.1 < key then
        balance left leader (erase key right)
      else
        append left right

theorem toList_splitLeast (left : TreeIndex) (leader : Leader)
    (right : TreeIndex) :
    (splitLeast left leader right).1 ::
        (splitLeast left leader right).2.toList =
      left.toList ++ leader :: right.toList := by
  induction left generalizing leader right with
  | leaf => rfl
  | node size inner first outer ih =>
      simp only [splitLeast, toList_balance, toList_node]
      rw [← List.cons_append, ih]

@[simp] theorem toList_append (left right : TreeIndex) :
    (append left right).toList = left.toList ++ right.toList := by
  cases right with
  | leaf => simp [append]
  | node size inner leader outer =>
      simp only [append, toList_balance, toList_node]
      rw [toList_splitLeast]

end TreeIndex

def treeEntryBytes : Nat := 24

instance : OrderIndex TreeIndex where
  empty := .leaf
  predecessor index key := index.floor key 0
  insert index key segment := index.insert key segment
  removeAny index key := (index.find? key, index.erase key)
  clear _ := .leaf
  size := TreeIndex.size
  entries := TreeIndex.toList
  memory index := treeEntryBytes * index.size

end PackedMemory
