import PackedMemory.Proofs.Access
import PackedMemory.Proofs.Index.Sorted
import PackedMemory.Proofs.Index.Tree

/-!
# Accesses of an order index

A sorted index reads and writes its two arrays by position, and shifts their
ends when a leader comes in or goes out.  A tree has no positions.
-/

namespace PackedMemory

open Checked

class CheckedIndex (ι : Type) [OrderIndex ι] [LawfulIndex ι] where
  predecessorChecked : ι → Key → Checked Nat
  insertChecked : ι → Key → Nat → Checked ι
  removeAnyChecked : ι → Key → Checked (Option Nat × ι)
  updateChecked : ι → Key → Key → Checked ι
  predecessorChecked_eq {index : ι} : LawfulIndex.Valid index → ∀ key,
    predecessorChecked index key = .ok (OrderIndex.predecessor index key)
  insertChecked_eq {index : ι} : LawfulIndex.Valid index → ∀ key segment,
    insertChecked index key segment =
      .ok (OrderIndex.insert index key segment)
  removeAnyChecked_eq {index : ι} : LawfulIndex.Valid index → ∀ key,
    removeAnyChecked index key = .ok (OrderIndex.removeAny index key)
  updateChecked_eq {index : ι} : LawfulIndex.Valid index → ∀ old new,
    updateChecked index old new = .ok (OrderIndex.update index old new)

namespace CheckedIndex

variable {ι : Type} [OrderIndex ι] [LawfulIndex ι] [CheckedIndex ι]

def insertAllChecked (index : ι) : List Leader → Checked ι
  | [] => return index
  | leader :: rest => do
      let grown ← insertChecked index leader.1 leader.2
      insertAllChecked grown rest

def removeAllChecked (index : ι) : List Key → Checked ι
  | [] => return index
  | key :: rest => do
      let (_, left) ← removeAnyChecked index key
      removeAllChecked left rest

theorem insertAllChecked_eq {index : ι} (h : LawfulIndex.Valid index)
    (leaders : List Leader) :
    insertAllChecked index leaders =
      .ok (OrderIndex.insertAll index leaders) := by
  induction leaders generalizing index with
  | nil => rfl
  | cons leader rest ih =>
      rw [insertAllChecked, insertChecked_eq h, ok_bind,
        ih (LawfulIndex.valid_insert h leader.1 leader.2)]
      rfl

theorem removeAllChecked_eq {index : ι} (h : LawfulIndex.Valid index)
    (keys : List Key) :
    removeAllChecked index keys = .ok (OrderIndex.removeAll index keys) := by
  induction keys generalizing index with
  | nil => rfl
  | cons key rest ih =>
      rw [removeAllChecked, removeAnyChecked_eq h, ok_bind]
      exact ih (LawfulIndex.valid_removeAny h key)

end CheckedIndex

/-! ## Sorted indexes -/

namespace SortedIndex

def searchChecked (keys : Array Key) (key : Key) (low high : Nat) :
    Checked Nat :=
  if low < high then do
    let middle := low + (high - low) / 2
    let found ← readCell keys middle
    if found < key then
      searchChecked keys key (middle + 1) high
    else
      searchChecked keys key low middle
  else
    return low
termination_by high - low

def lowerBoundChecked (index : SortedIndex) (key : Key) : Checked Nat :=
  searchChecked index.keys key 0 index.keys.size

def position?Checked (index : SortedIndex) (key : Key) :
    Checked (Option Nat) := do
  let position ← index.lowerBoundChecked key
  if position < index.keys.size then
    let found ← readCell index.keys position
    return if found = key then some position else none
  else
    return none

def predecessorChecked (index : SortedIndex) (key : Key) : Checked Nat := do
  match ← index.position?Checked key with
  | some position => readCell index.segments position
  | none =>
      match ← index.lowerBoundChecked key with
      | 0 => return 0
      | position + 1 => readCell index.segments position

def insertChecked (index : SortedIndex) (key : Key) (segment : Nat) :
    Checked SortedIndex := do
  match ← index.position?Checked key with
  | some position =>
      let segments ← writeCell index.segments position segment
      return { index with segments }
  | none =>
      let position ← index.lowerBoundChecked key
      let keys ← insertCell index.keys position key
      let segments ← insertCell index.segments position segment
      return ⟨keys, segments⟩

def eraseAtChecked (index : SortedIndex) (position : Nat) :
    Checked SortedIndex := do
  let keys ← eraseCell index.keys position
  let segments ← eraseCell index.segments position
  return ⟨keys, segments⟩

def removeAnyChecked (index : SortedIndex) (key : Key) :
    Checked (Option Nat × SortedIndex) := do
  match ← index.position?Checked key with
  | some position =>
      let segment ← readCell index.segments position
      let rest ← index.eraseAtChecked position
      return (some segment, rest)
  | none => return (none, index)

def followsChecked (index : SortedIndex) (position : Nat) (key : Key) :
    Checked Bool := do
  if position = 0 then
    return true
  else
    let before ← readCell index.keys (position - 1)
    return decide (before < key)

def precedesChecked (index : SortedIndex) (position : Nat) (key : Key) :
    Checked Bool := do
  if position + 1 = index.keys.size then
    return true
  else
    let after ← readCell index.keys (position + 1)
    return decide (key < after)

def fitsChecked (index : SortedIndex) (position : Nat) (key : Key) :
    Checked Bool := do
  let follows ← index.followsChecked position key
  let precedes ← index.precedesChecked position key
  return follows && precedes

def updateChecked (index : SortedIndex) (old new : Key) :
    Checked SortedIndex := do
  match ← index.position?Checked old with
  | none => return index
  | some position =>
      if ← index.fitsChecked position new then
        let keys ← writeCell index.keys position new
        return { index with keys }
      else
        let segment ← readCell index.segments position
        let rest ← index.eraseAtChecked position
        rest.insertChecked new segment

variable {index : SortedIndex} {position : Nat}

theorem searchChecked_eq {keys : Array Key} {low high : Nat} (key : Key)
    (h : high ≤ keys.size) :
    searchChecked keys key low high = .ok (search keys key low high) := by
  fun_induction search keys key low high with
  | case1 low high hlow middle hbelow ih =>
      have hread : readCell keys middle = .ok (keys.getD middle 0) :=
        readCell_getD (by omega) 0
      rw [searchChecked, if_pos hlow]
      simp only [middle] at hread hbelow ih ⊢
      rw [hread, ok_bind, if_pos hbelow, ih h]
  | case2 low high hlow middle hbelow ih =>
      have hread : readCell keys middle = .ok (keys.getD middle 0) :=
        readCell_getD (by omega) 0
      rw [searchChecked, if_pos hlow]
      simp only [middle] at hread hbelow ih ⊢
      rw [hread, ok_bind, if_neg hbelow, ih (by omega)]
  | case3 low high hlow =>
      rw [searchChecked, if_neg hlow]
      rfl

theorem lowerBoundChecked_eq (index : SortedIndex) (key : Key) :
    index.lowerBoundChecked key = .ok (index.lowerBound key) :=
  searchChecked_eq key (Nat.le_refl _)

theorem lowerBound_le_size (index : SortedIndex) (key : Key) :
    index.lowerBound key ≤ index.keys.size :=
  (search_bounds index.keys key (Nat.zero_le _)).2

theorem lt_size_of_position? {key : Key}
    (h : index.position? key = some position) : position < index.keys.size := by
  simp only [position?] at h
  split at h
  · rename_i hkey
    cases h
    exact (Array.getElem?_eq_some_iff.mp hkey).1
  · contradiction

theorem position?Checked_eq (index : SortedIndex) (key : Key) :
    index.position?Checked key = .ok (index.position? key) := by
  simp only [position?Checked, position?, lowerBoundChecked_eq, ok_bind]
  by_cases hlt : index.lowerBound key < index.keys.size
  · have hfound := Array.getElem?_eq_getElem hlt
    simp only [if_pos hlt, readCell_eq hfound, hfound, ok_bind, pure_eq_ok,
      Option.some.injEq]
  · have hnone := Array.getElem?_eq_none (Nat.le_of_not_lt hlt)
    rw [if_neg hlt, hnone]
    rfl

theorem fitsChecked_eq (hposition : position < index.keys.size) (key : Key) :
    index.fitsChecked position key = .ok (index.fits position key) := by
  have hfollows : index.followsChecked position key = .ok
      (position == 0 || index.keys.getD (position - 1) 0 < key) := by
    rw [followsChecked]
    split
    · simp [*]
    · rw [readCell_getD (by omega) 0]
      simp [*]
  have hprecedes : index.precedesChecked position key = .ok
      (position + 1 == index.keys.size ||
        key < index.keys.getD (position + 1) 0) := by
    rw [precedesChecked]
    split
    · simp [*]
    · rw [readCell_getD (by omega) 0]
      simp [*]
  rw [fitsChecked, hfollows, ok_bind, hprecedes]
  rfl

section Paired

variable (h : index.keys.size = index.segments.size)
include h

theorem predecessorChecked_eq (key : Key) :
    index.predecessorChecked key = .ok (index.predecessor key) := by
  have hle := index.lowerBound_le_size key
  rw [predecessorChecked, predecessor, position?Checked_eq, ok_bind]
  cases hfound : index.position? key with
  | some position =>
      exact readCell_getD (h ▸ lt_size_of_position? hfound) 0
  | none =>
      rw [lowerBoundChecked_eq]
      cases hbound : index.lowerBound key with
      | zero => rfl
      | succ position => exact readCell_getD (by omega) 0

theorem insertChecked_eq (key : Key) (segment : Nat) :
    index.insertChecked key segment = .ok (index.insert key segment) := by
  have hle := index.lowerBound_le_size key
  rw [insertChecked, insert, position?Checked_eq, ok_bind]
  cases hfound : index.position? key with
  | some position =>
      have hlt := h ▸ lt_size_of_position? hfound
      simp only [writeCell_eq hlt, ok_bind, pure_eq_ok]
  | none =>
      simp only [lowerBoundChecked_eq, insertCell_eq hle,
        insertCell_eq (hle.trans h.le), ok_bind, pure_eq_ok]

theorem eraseAtChecked_eq (hposition : position < index.keys.size) :
    index.eraseAtChecked position = .ok (index.eraseAt position) := by
  rw [eraseAtChecked, eraseCell_eq hposition, ok_bind,
    eraseCell_eq (h ▸ hposition)]
  rfl

theorem removeAnyChecked_eq (key : Key) :
    index.removeAnyChecked key = .ok (index.removeAny key) := by
  rw [removeAnyChecked, removeAny, position?Checked_eq, ok_bind]
  cases hfound : index.position? key with
  | none => rfl
  | some position =>
      have hlt := lt_size_of_position? hfound
      have hsegment := Array.getElem?_eq_getElem (h ▸ hlt)
      simp only [readCell_eq hsegment, hsegment, eraseAtChecked_eq h hlt,
        ok_bind, pure_eq_ok]

theorem size_eraseAt (position : Nat) :
    (index.eraseAt position).keys.size =
      (index.eraseAt position).segments.size := by
  simp [eraseAt, Array.size_eraseIdxIfInBounds, ← h]

theorem updateChecked_eq (old new : Key) :
    index.updateChecked old new = .ok (index.update old new) := by
  rw [updateChecked, update, position?Checked_eq, ok_bind]
  cases hfound : index.position? old with
  | none => rfl
  | some position =>
      have hlt := lt_size_of_position? hfound
      simp only [fitsChecked_eq hlt, ok_bind]
      split
      · simp only [writeCell_eq hlt, ok_bind, pure_eq_ok]
      · simp only [readCell_getD (h ▸ hlt) 0, eraseAtChecked_eq h hlt, ok_bind,
          insertChecked_eq (size_eraseAt h position)]

end Paired

theorem Lists.size_eq {leaders : List Leader} (h : index.Lists leaders) :
    index.keys.size = index.segments.size := by
  rw [h.size_keys, ← Array.length_toList, h.2, List.length_map]

end SortedIndex

instance : CheckedIndex SortedIndex where
  predecessorChecked := SortedIndex.predecessorChecked
  insertChecked := SortedIndex.insertChecked
  removeAnyChecked := SortedIndex.removeAnyChecked
  updateChecked := SortedIndex.updateChecked
  predecessorChecked_eq h := SortedIndex.predecessorChecked_eq h.1.size_eq
  insertChecked_eq h := SortedIndex.insertChecked_eq h.1.size_eq
  removeAnyChecked_eq h := SortedIndex.removeAnyChecked_eq h.1.size_eq
  updateChecked_eq h := SortedIndex.updateChecked_eq h.1.size_eq

/-- The nodes of a tree are reached by links. -/
instance : CheckedIndex TreeIndex where
  predecessorChecked index key := .ok (OrderIndex.predecessor index key)
  insertChecked index key segment := .ok (OrderIndex.insert index key segment)
  removeAnyChecked index key := .ok (OrderIndex.removeAny index key)
  updateChecked index old new := .ok (OrderIndex.update index old new)
  predecessorChecked_eq _ _ := rfl
  insertChecked_eq _ _ _ := rfl
  removeAnyChecked_eq _ _ := rfl
  updateChecked_eq _ _ _ := rfl

end PackedMemory
