import PackedMemory.Index.Basic

/-!
# A sorted index

Two arrays side by side, one of strictly increasing keys and one of the segments
they stand for.  Keys are looked up by halving an interval of positions.
-/

namespace PackedMemory

structure SortedIndex where
  keys : Array Key
  segments : Array Nat
deriving DecidableEq, Repr

namespace SortedIndex

/--
Halves the positions from `low` to `high`.  What stands before `low` is known to
be below the key, and what stands from `high` on is known not to be.
-/
def search (keys : Array Key) (key : Key) (low high : Nat) : Nat :=
  if low < high then
    let middle := low + (high - low) / 2
    if keys.getD middle 0 < key then
      search keys key (middle + 1) high
    else
      search keys key low middle
  else
    low
termination_by high - low

theorem search_bounds (keys : Array Key) (key : Key) {low high : Nat}
    (h : low ≤ high) :
    low ≤ search keys key low high ∧ search keys key low high ≤ high := by
  fun_induction search keys key low high with
  | case1 low high hlow middle hbelow ih =>
      have hbounds := ih (by omega)
      omega
  | case2 low high hlow middle hbelow ih =>
      have hbounds := ih (by omega)
      omega
  | case3 low high hlow => omega

/-- Among increasing keys, exactly those before the position found are below. -/
theorem lt_iff_lt_search {keys : Array Key} {key : Key} {low high : Nat}
    (hsorted : ∀ left right, left < right → right < keys.size →
      keys.getD left 0 < keys.getD right 0)
    (h : low ≤ high) (hhigh : high ≤ keys.size) {position : Nat}
    (hlow : low ≤ position) (hposition : position < high) :
    keys.getD position 0 < key ↔ position < search keys key low high := by
  fun_induction search keys key low high with
  | case1 low high hlt middle hbelow ih =>
      have hbounds := search_bounds keys key
        (show middle + 1 ≤ high by omega)
      by_cases hmiddle : position ≤ middle
      · refine ⟨fun _ => by omega, fun _ => ?_⟩
        rcases Nat.lt_or_eq_of_le hmiddle with hbefore | rfl
        · exact Int64.lt_trans
            (hsorted position middle hbefore (by omega)) hbelow
        · exact hbelow
      · exact ih (by omega) hhigh (by omega) hposition
  | case2 low high hlt middle hbelow ih =>
      have hbounds := search_bounds keys key (show low ≤ middle by omega)
      by_cases hmiddle : position < middle
      · exact ih (by omega) (by omega) hlow hmiddle
      · refine ⟨fun hkey => absurd ?_ hbelow, fun _ => by omega⟩
        rcases Nat.lt_or_eq_of_le (Nat.le_of_not_lt hmiddle) with
          hbefore | rfl
        · exact Int64.lt_trans
            (hsorted middle position hbefore (by omega)) hkey
        · exact hkey
  | case3 low high hnot => omega

def lowerBound (index : SortedIndex) (key : Key) : Nat :=
  search index.keys key 0 index.keys.size

def position? (index : SortedIndex) (key : Key) : Option Nat :=
  let position := index.lowerBound key
  if index.keys[position]? = some key then some position else none

def predecessor (index : SortedIndex) (key : Key) : Nat :=
  match index.position? key with
  | some position => index.segments.getD position 0
  | none =>
      match index.lowerBound key with
      | 0 => 0
      | position + 1 => index.segments.getD position 0

def insert (index : SortedIndex) (key : Key) (segment : Nat) : SortedIndex :=
  match index.position? key with
  | some position =>
      { index with segments := index.segments.setIfInBounds position segment }
  | none =>
      let position := index.lowerBound key
      { keys := index.keys.insertIdxIfInBounds position key
        segments := index.segments.insertIdxIfInBounds position segment }

def eraseAt (index : SortedIndex) (position : Nat) : SortedIndex where
  keys := index.keys.eraseIdxIfInBounds position
  segments := index.segments.eraseIdxIfInBounds position

def removeAny (index : SortedIndex) (key : Key) :
    Option Nat × SortedIndex :=
  match index.position? key with
  | some position => (index.segments[position]?, index.eraseAt position)
  | none => (none, index)

def fits (index : SortedIndex) (position : Nat) (key : Key) : Bool :=
  (position == 0 || index.keys.getD (position - 1) 0 < key) &&
    (position + 1 == index.keys.size || key < index.keys.getD (position + 1) 0)

/-- A key that keeps its place among its neighbours is overwritten in place. -/
def update (index : SortedIndex) (old new : Key) : SortedIndex :=
  match index.position? old with
  | none => index
  | some position =>
      if index.fits position new then
        { index with keys := index.keys.setIfInBounds position new }
      else
        (index.eraseAt position).insert new (index.segments.getD position 0)

def entries (index : SortedIndex) : List Leader :=
  index.keys.toList.zip index.segments.toList

end SortedIndex

instance : OrderIndex SortedIndex where
  empty := ⟨#[], #[]⟩
  predecessor := SortedIndex.predecessor
  insert := SortedIndex.insert
  removeAny := SortedIndex.removeAny
  update := SortedIndex.update
  clear _ := ⟨#[], #[]⟩
  size index := index.keys.size
  entries := SortedIndex.entries
  memory index := 8 * index.keys.size + 8 * index.segments.size

end PackedMemory
