import PackedMemory.Proofs.Access
import PackedMemory.Proofs.Counters

/-!
# Accesses to counters

Every row of counters is an array of its own.  Reading one counter or a run of
them, counting along a path to the root and recording a run stay within exact
rows.
-/

namespace PackedMemory

open Checked

namespace CountTree

def totalChecked (tree : CountTree) : Checked Nat :=
  readCell (tree.row tree.above.length) 0

def leafChecked (tree : CountTree) (segment : Nat) : Checked Nat :=
  readCell tree.leaves segment

def elementsChecked (tree : CountTree) (start length : Nat) : Checked Nat :=
  if isAligned start length then
    readCell (tree.row (Nat.log2 length)) (start / length)
  else do
    let counts ← readRun tree.leaves start (start + length)
    return counts.foldl (· + ·) 0

def adjustRowsChecked (change : Nat → Nat) :
    List (Array Nat) → Nat → Checked (List (Array Nat))
  | [], _ => return []
  | row :: rows, position => do
      let count ← readCell row position
      let row ← writeCell row position (change count)
      let rows ← adjustRowsChecked change rows (position / 2)
      return row :: rows

def adjustChecked (change : Nat → Nat) (tree : CountTree) (segment : Nat) :
    Checked CountTree := do
  let count ← readCell tree.leaves segment
  let leaves ← writeCell tree.leaves segment (change count)
  let above ← adjustRowsChecked change tree.above (segment / 2)
  return ⟨leaves, above⟩

def refreshRowsChecked (below : Array Nat) (start stop : Nat) :
    List (Array Nat) → Checked (List (Array Nat))
  | [] => return []
  | row :: rows => do
      let first := start / 2
      let last := (stop + 1) / 2
      let cells ← readRun below (2 * first) (2 * last)
      let refreshed ← writeRun row first (pairSums cells)
      let rows ← refreshRowsChecked refreshed first last rows
      return refreshed :: rows

def recordChecked (tree : CountTree) (start : Nat) (counts : List Nat) :
    Checked CountTree := do
  let leaves ← writeRun tree.leaves start counts
  let above ←
    refreshRowsChecked leaves start (start + counts.length) tree.above
  return ⟨leaves, above⟩

def Halving : Nat → List (Array Nat) → Prop
  | _, [] => True
  | size, row :: rows => 2 * row.size = size ∧ Halving row.size rows

theorem halving_sumRows {levels : Nat} {cells : Array Nat}
    (h : cells.size = 2 ^ levels) : Halving cells.size (sumRows levels cells) := by
  induction levels generalizing cells with
  | zero => trivial
  | succ levels ih =>
      have hnext := size_nextRow_of_pow h
      refine ⟨?_, ih hnext⟩
      rw [hnext, h, Nat.pow_succ, Nat.mul_comm]

theorem modify_eq_setIfInBounds {cells : Array Nat} {position : Nat}
    (h : position < cells.size) (change : Nat → Nat) :
    cells.modify position change =
      cells.setIfInBounds position (change (cells.getD position 0)) := by
  apply Array.ext_getElem?
  intro other
  rw [Array.getElem?_modify, Array.getElem?_setIfInBounds]
  by_cases hother : position = other
  · subst hother
    simp [h]
  · rw [if_neg hother, if_neg hother]

theorem adjustRowsChecked_eq {rows : List (Array Nat)} {size position : Nat}
    (h : Halving size rows) (hposition : position < size)
    (change : Nat → Nat) :
    adjustRowsChecked change rows (position / 2) =
      .ok (adjustRows change rows (position / 2)) := by
  induction rows generalizing size position with
  | nil => rfl
  | cons row rows ih =>
      obtain ⟨hrow, hrows⟩ := h
      have hhalf : position / 2 < row.size := by omega
      simp only [adjustRowsChecked, adjustRows, readCell_getD hhalf 0,
        writeCell_eq hhalf, modify_eq_setIfInBounds hhalf, ok_bind, pure_eq_ok,
        ih hrows hhalf]

theorem refreshRowsChecked_eq {below : Array Nat} {rows : List (Array Nat)}
    {start stop : Nat} (h : Halving below.size rows) (hstart : start ≤ stop)
    (hstop : stop ≤ below.size) :
    refreshRowsChecked below start stop rows =
      .ok (refreshRows below start stop rows) := by
  induction rows generalizing below start stop with
  | nil => rfl
  | cons row rows ih =>
      obtain ⟨hrow, hrows⟩ := h
      have hread : readRun below (2 * (start / 2)) (2 * ((stop + 1) / 2)) =
          .ok (below.extract (2 * (start / 2)) (2 * ((stop + 1) / 2))).toList :=
        readRun_eq (by omega) (by omega)
      have hlength : (pairSums (below.extract (2 * (start / 2))
          (2 * ((stop + 1) / 2))).toList).length =
            (stop + 1) / 2 - start / 2 := by
        rw [length_pairSums, Array.length_toList, Array.size_extract]
        omega
      simp only [refreshRowsChecked, refreshRows, hread, ok_bind, pure_eq_ok]
      generalize pairSums (below.extract _ _).toList = sums at hlength ⊢
      have hsize := size_overwrite row (start / 2) sums
      rw [writeRun_eq (by omega), ok_bind,
        ih (hsize.symm ▸ hrows) (by omega) (by omega)]
      rfl

section OfCounts

variable {counts : Array Nat} {levels : Nat} (hsize : counts.size = 2 ^ levels)
include hsize

theorem totalChecked_ofCounts :
    (ofCounts counts).totalChecked = .ok (ofCounts counts).total := by
  have hheight : (ofCounts counts).above.length = levels := by
    rw [ofCounts, length_sumRows, hsize, Nat.log2_two_pow]
  have hroot := getElem?_row_ofCounts hsize (Nat.le_refl levels) 0
  rw [if_pos (by omega)] at hroot
  rw [totalChecked, total, hheight]
  exact readCell_getD (Array.getElem?_eq_some_iff.mp hroot).1 0

theorem elementsChecked_ofCounts {start length : Nat}
    (h : start + length ≤ counts.size) :
    (ofCounts counts).elementsChecked start length =
      .ok ((ofCounts counts).elements start length) := by
  rw [elementsChecked, elements]
  split
  · rename_i haligned
    simp only [isAligned, Bool.and_eq_true, beq_iff_eq, isPowerOfTwo_iff]
      at haligned
    obtain ⟨⟨level, rfl⟩, hstart⟩ := haligned
    obtain ⟨position, rfl⟩ := Nat.dvd_of_mod_eq_zero hstart
    have hlevel : level ≤ levels := by
      rw [hsize] at h
      exact (Nat.pow_le_pow_iff_right (a := 2) (by omega)).mp (by omega)
    rw [Nat.log2_two_pow, Nat.mul_div_cancel_left _ (Nat.two_pow_pos level)]
    have hcell := getElem?_row_ofCounts hsize hlevel position
    rw [if_pos (by rwa [Nat.succ_mul, Nat.mul_comm])] at hcell
    exact readCell_getD (Array.getElem?_eq_some_iff.mp hcell).1 0
  · rw [leaves_ofCounts, readRun_eq (Nat.le_add_right _ _) h, ok_bind,
      pure_eq_ok, Array.foldl_toList]

theorem adjustChecked_ofCounts {segment : Nat} (h : segment < counts.size)
    (change : Nat → Nat) :
    (ofCounts counts).adjustChecked change segment =
      .ok ((ofCounts counts).adjust change segment) := by
  have hrows := halving_sumRows hsize
  rw [← Nat.log2_two_pow (n := levels), ← hsize] at hrows
  simp only [adjustChecked, adjust, ofCounts, readCell_getD h 0,
    writeCell_eq h, modify_eq_setIfInBounds h, adjustRowsChecked_eq hrows h,
    ok_bind, pure_eq_ok]

theorem recordChecked_ofCounts {start : Nat} {run : List Nat}
    (h : start + run.length ≤ counts.size) :
    (ofCounts counts).recordChecked start run =
      .ok ((ofCounts counts).record start run) := by
  have hleaves := size_overwrite counts start run
  have hrows := halving_sumRows hsize
  rw [← Nat.log2_two_pow (n := levels), ← hsize] at hrows
  simp only [recordChecked, record, ofCounts, writeRun_eq h, ok_bind]
  rw [refreshRowsChecked_eq (hleaves.symm ▸ hrows) (Nat.le_add_right _ _)
    (by omega)]
  rfl

end OfCounts

end CountTree

end PackedMemory
