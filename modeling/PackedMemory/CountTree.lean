import PackedMemory.Overwrite
import PackedMemory.PowerOfTwo

/-!
# Counters for windows

The number of elements in every window of the tree over the segments, one row of
counters for each level.  A cell of a row stands for the two cells below it, so
a change in one segment touches one cell of each row, and a change in a run of
segments touches a run of cells that halves from row to row.
-/

namespace PackedMemory

/-- Counters of the segments, and above them of windows of 2, 4, … segments. -/
structure CountTree where
  leaves : Array Nat
  above : List (Array Nat)
deriving DecidableEq, Repr

namespace CountTree

def emptyRows : Nat → List (Array Nat)
  | 0 => []
  | level + 1 => Array.replicate (Nat.pow 2 level) 0 :: emptyRows level

def empty (level : Nat) : CountTree :=
  ⟨Array.replicate (Nat.pow 2 level) 0, emptyRows level⟩

def height (tree : CountTree) : Nat := tree.above.length + 1

/-- The counters of the windows of `2 ^ level` segments. -/
def row (tree : CountTree) (level : Nat) : Array Nat :=
  (tree.leaves :: tree.above).getD level #[]

def leaf (tree : CountTree) (segment : Nat) : Nat :=
  tree.leaves.getD segment 0

def total (tree : CountTree) : Nat :=
  (tree.row tree.above.length).getD 0 0

def isAligned (start length : Nat) : Bool :=
  isPowerOfTwo length && start % length == 0

/--
The number of elements in a run of segments: one counter for a window of the
tree, and the sum of the segments' counters for any other run.
-/
def elements (tree : CountTree) (start length : Nat) : Nat :=
  if isAligned start length then
    (tree.row (Nat.log2 length)).getD (start / length) 0
  else
    (tree.leaves.extract start (start + length)).foldl (· + ·) 0

def adjustRows (change : Nat → Nat) : List (Array Nat) → Nat → List (Array Nat)
  | [], _ => []
  | row :: rows, position =>
      row.modify position change :: adjustRows change rows (position / 2)

def adjust (change : Nat → Nat) (tree : CountTree) (segment : Nat) : CountTree where
  leaves := tree.leaves.modify segment change
  above := adjustRows change tree.above (segment / 2)

def increment (tree : CountTree) (segment : Nat) : CountTree :=
  tree.adjust (· + 1) segment

def decrement (tree : CountTree) (segment : Nat) : CountTree :=
  tree.adjust (· - 1) segment

def pairSums : List Nat → List Nat
  | first :: second :: rest => (first + second) :: pairSums rest
  | _ => []

/--
Recomputes what stands above the cells from `start` up to `stop` of the row
`below`.
-/
def refreshRows (below : Array Nat) (start stop : Nat) :
    List (Array Nat) → List (Array Nat)
  | [] => []
  | row :: rows =>
      let first := start / 2
      let last := (stop + 1) / 2
      let sums := pairSums (below.extract (2 * first) (2 * last)).toList
      let refreshed := overwrite row first sums
      refreshed :: refreshRows refreshed first last rows

def record (tree : CountTree) (start : Nat) (counts : List Nat) : CountTree :=
  let leaves := overwrite tree.leaves start counts
  { leaves, above := refreshRows leaves start (start + counts.length) tree.above }

def clear (tree : CountTree) : CountTree where
  leaves := tree.leaves.map fun _ => 0
  above := tree.above.map fun row => row.map fun _ => 0

/-! ## Shape -/

@[simp] theorem length_emptyRows (level : Nat) :
    (emptyRows level).length = level := by
  induction level with
  | zero => rfl
  | succ level ih => simp [emptyRows, ih]

@[simp] theorem length_adjustRows (change : Nat → Nat) (rows : List (Array Nat))
    (position : Nat) :
    (adjustRows change rows position).length = rows.length := by
  induction rows generalizing position with
  | nil => rfl
  | cons row rows ih => simp [adjustRows, ih]

@[simp] theorem length_refreshRows (below : Array Nat) (start stop : Nat)
    (rows : List (Array Nat)) :
    (refreshRows below start stop rows).length = rows.length := by
  induction rows generalizing below start stop with
  | nil => rfl
  | cons row rows ih => simp [refreshRows, ih]

theorem height_empty (level : Nat) : (empty level).height = level + 1 := by
  simp [empty, height]

@[simp] theorem height_adjust (change : Nat → Nat) (tree : CountTree)
    (segment : Nat) : (tree.adjust change segment).height = tree.height := by
  simp [adjust, height]

@[simp] theorem height_record (tree : CountTree) (start : Nat)
    (counts : List Nat) : (tree.record start counts).height = tree.height := by
  simp [record, height]

@[simp] theorem height_clear (tree : CountTree) :
    tree.clear.height = tree.height := by
  simp [clear, height]

@[simp] theorem size_leaves_adjust (change : Nat → Nat) (tree : CountTree)
    (segment : Nat) :
    (tree.adjust change segment).leaves.size = tree.leaves.size := by
  simp [adjust]

@[simp] theorem size_leaves_record (tree : CountTree) (start : Nat)
    (counts : List Nat) :
    (tree.record start counts).leaves.size = tree.leaves.size := by
  simp [record]

@[simp] theorem size_leaves_clear (tree : CountTree) :
    tree.clear.leaves.size = tree.leaves.size := by
  simp [clear]

end CountTree

end PackedMemory
