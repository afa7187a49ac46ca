import Mathlib
import PackedMemory.CountTree
import PackedMemory.Proofs.Geometry

/-!
# Exact counters

The rows above the counters of the segments are determined by these: every cell
is the sum of the two cells below it.  Counting one element more or less and
recording a run of counters keep the rows exact, and an exact row gives the
number of elements in any window of the tree.
-/

namespace PackedMemory

namespace CountTree

@[simp] theorem length_pairSums (cells : List Nat) :
    (pairSums cells).length = cells.length / 2 := by
  fun_induction pairSums cells with
  | case1 first second rest ih =>
      simp only [List.length_cons, ih]
      omega
  | case2 cells hpair =>
      rcases cells with _ | ⟨first, _ | ⟨second, rest⟩⟩
      · rfl
      · simp
      · exact absurd rfl (hpair first second rest)

theorem getElem?_pairSums (cells : List Nat) (position : Nat) :
    (pairSums cells)[position]? =
      Option.map₂ (· + ·) cells[2 * position]? cells[2 * position + 1]? := by
  fun_induction pairSums cells generalizing position with
  | case1 first second rest ih =>
      cases position with
      | zero => rfl
      | succ position =>
          rw [List.getElem?_cons_succ, ih]
          rfl
  | case2 cells hpair =>
      rcases cells with _ | ⟨first, _ | ⟨second, rest⟩⟩
      · simp
      · simp
      · exact absurd rfl (hpair first second rest)

theorem drop_pairSums (cells : List Nat) (count : Nat) :
    (pairSums cells).drop count = pairSums (cells.drop (2 * count)) := by
  apply List.ext_getElem?
  intro position
  simp only [List.getElem?_drop, getElem?_pairSums]
  congr 2 <;> omega

theorem take_pairSums (cells : List Nat) (count : Nat) :
    (pairSums cells).take count = pairSums (cells.take (2 * count)) := by
  apply List.ext_getElem?
  intro position
  simp only [List.getElem?_take, getElem?_pairSums]
  by_cases h : position < count
  · rw [if_pos h, if_pos (by omega), if_pos (by omega)]
  · rw [if_neg h, if_neg (by omega), Option.map₂_none_left]

theorem sum_pairSums {cells : List Nat} (h : cells.length % 2 = 0) :
    (pairSums cells).sum = cells.sum := by
  fun_induction pairSums cells with
  | case1 first second rest ih =>
      simp only [List.length_cons] at h
      simp only [List.sum_cons, ih (by omega)]
      omega
  | case2 cells hpair =>
      rcases cells with _ | ⟨first, _ | ⟨second, rest⟩⟩
      · rfl
      · simp at h
      · exact absurd rfl (hpair first second rest)

def nextRow (cells : Array Nat) : Array Nat := (pairSums cells.toList).toArray

def sumRows : Nat → Array Nat → List (Array Nat)
  | 0, _ => []
  | levels + 1, cells => nextRow cells :: sumRows levels (nextRow cells)

def ofCounts (counts : Array Nat) : CountTree :=
  ⟨counts, sumRows (Nat.log2 counts.size) counts⟩

@[simp] theorem size_nextRow (cells : Array Nat) :
    (nextRow cells).size = cells.size / 2 := by
  simp [nextRow]

theorem size_nextRow_of_pow {cells : Array Nat} {levels : Nat}
    (h : cells.size = 2 ^ (levels + 1)) : (nextRow cells).size = 2 ^ levels := by
  rw [size_nextRow, h, Nat.pow_succ, Nat.mul_div_cancel _ (by omega)]

@[simp] theorem length_sumRows (levels : Nat) (cells : Array Nat) :
    (sumRows levels cells).length = levels := by
  induction levels generalizing cells with
  | zero => rfl
  | succ levels ih => simp [sumRows, ih]

theorem height_ofCounts (counts : Array Nat) :
    (ofCounts counts).height = Nat.log2 counts.size + 1 := by
  simp [ofCounts, height]

@[simp] theorem leaves_ofCounts (counts : Array Nat) :
    (ofCounts counts).leaves = counts := rfl

theorem emptyRows_eq_sumRows (level : Nat) :
    emptyRows level = sumRows level (Array.replicate (2 ^ level) 0) := by
  induction level with
  | zero => rfl
  | succ level ih =>
      have hrow : nextRow (Array.replicate (2 ^ (level + 1)) 0) =
          Array.replicate (2 ^ level) 0 := by
        apply Array.ext_getElem?
        intro position
        simp only [nextRow, List.getElem?_toArray, getElem?_pairSums,
          Array.toList_replicate, List.getElem?_replicate,
          Array.getElem?_replicate, Nat.pow_succ]
        by_cases h : position < 2 ^ level
        · rw [if_pos (by omega), if_pos (by omega), if_pos h]
          rfl
        · rw [if_neg (by omega), if_neg h, Option.map₂_none_left]
      rw [emptyRows, sumRows, hrow, ih]
      rfl

theorem empty_eq_ofCounts (level : Nat) :
    empty level = ofCounts (Array.replicate (2 ^ level) 0) := by
  rw [empty, ofCounts, Array.size_replicate, Nat.log2_two_pow,
    emptyRows_eq_sumRows]
  rfl

theorem nextRow_modify {cells : Array Nat} {segment : Nat} {change : Nat → Nat}
    (heven : cells.size % 2 = 0)
    (hchange : ∀ held other, cells.getD segment 0 ≤ held →
      change (held + other) = change held + other) :
    nextRow (cells.modify segment change) =
      (nextRow cells).modify (segment / 2) change := by
  apply Array.ext_getElem?
  intro position
  simp only [nextRow, List.getElem?_toArray, getElem?_pairSums,
    Array.getElem?_modify, Array.getElem?_toList]
  by_cases hposition : segment / 2 = position
  · rw [if_pos hposition]
    by_cases hsize : 2 * position + 1 < cells.size
    · rw [Array.getElem?_eq_getElem hsize,
        Array.getElem?_eq_getElem (show 2 * position < cells.size by omega)]
      rcases Nat.mod_two_eq_zero_or_one segment with hparity | hparity
      · have hsegment : segment = 2 * position := by omega
        subst hsegment
        have hsum := hchange cells[2 * position] cells[2 * position + 1]
          (by simp [Array.getD, show 2 * position < cells.size by omega])
        simp [hsum]
      · have hsegment : segment = 2 * position + 1 := by omega
        subst hsegment
        have hsum := hchange cells[2 * position + 1] cells[2 * position]
          (by simp [Array.getD, hsize])
        simp [Nat.add_comm cells[2 * position], hsum]
    · simp [show cells[2 * position]? = none from
        Array.getElem?_eq_none (by omega)]
  · rw [if_neg hposition, if_neg (by omega), if_neg (by omega)]

theorem getD_le_getD_nextRow {cells : Array Nat} {segment : Nat}
    (heven : cells.size % 2 = 0) :
    cells.getD segment 0 ≤ (nextRow cells).getD (segment / 2) 0 := by
  by_cases hsegment : segment < cells.size
  · have hleft : 2 * (segment / 2) < cells.size := by omega
    have hright : 2 * (segment / 2) + 1 < cells.size := by omega
    have hvalue : (nextRow cells)[segment / 2]? =
        some (cells[2 * (segment / 2)] + cells[2 * (segment / 2) + 1]) := by
      simp only [nextRow, List.getElem?_toArray, getElem?_pairSums,
        Array.getElem?_toList]
      rw [Array.getElem?_eq_getElem (by omega),
        Array.getElem?_eq_getElem (by omega)]
      rfl
    rw [Array.getD_eq_getD_getElem?, Array.getD_eq_getD_getElem?, hvalue,
      Array.getElem?_eq_getElem hsegment]
    simp only [Option.getD_some]
    rcases Nat.mod_two_eq_zero_or_one segment with hparity | hparity
    · have heq : 2 * (segment / 2) = segment := by omega
      simp only [heq]
      omega
    · have heq : 2 * (segment / 2) + 1 = segment := by omega
      simp only [heq]
      omega
  · simp [Array.getD, hsegment]

theorem adjustRows_sumRows {levels : Nat} {cells : Array Nat} {segment : Nat}
    {change : Nat → Nat} (hsize : cells.size = 2 ^ levels)
    (hchange : ∀ held other, cells.getD segment 0 ≤ held →
      change (held + other) = change held + other) :
    adjustRows change (sumRows levels cells) (segment / 2) =
      sumRows levels (cells.modify segment change) := by
  induction levels generalizing cells segment with
  | zero => rfl
  | succ levels ih =>
      have heven : cells.size % 2 = 0 := by
        rw [hsize, Nat.pow_succ]
        omega
      have hnext : ∀ held other,
          (nextRow cells).getD (segment / 2) 0 ≤ held →
            change (held + other) = change held + other := by
        intro held other hheld
        exact hchange held other
          (Nat.le_trans (getD_le_getD_nextRow heven) hheld)
      rw [sumRows, sumRows, adjustRows, nextRow_modify heven hchange,
        ih (size_nextRow_of_pow hsize) hnext]

theorem increment_ofCounts {levels : Nat} {counts : Array Nat}
    (hsize : counts.size = 2 ^ levels) (segment : Nat) :
    (ofCounts counts).increment segment =
      ofCounts (counts.modify segment (· + 1)) := by
  simp only [increment, adjust, ofCounts, Array.size_modify]
  congr 1
  rw [hsize, Nat.log2_two_pow]
  exact adjustRows_sumRows hsize fun held other _ => by omega

theorem decrement_ofCounts {levels : Nat} {counts : Array Nat}
    (hsize : counts.size = 2 ^ levels) {segment : Nat}
    (hpositive : 0 < counts.getD segment 0) :
    (ofCounts counts).decrement segment =
      ofCounts (counts.modify segment (· - 1)) := by
  simp only [decrement, adjust, ofCounts, Array.size_modify]
  congr 1
  rw [hsize, Nat.log2_two_pow]
  exact adjustRows_sumRows hsize fun held other hheld => by omega

/-! ## A run of segments -/

theorem pairSums_extract (below : Array Nat) (first last : Nat) :
    pairSums (below.extract (2 * first) (2 * last)).toList =
      ((nextRow below).toList.drop first).take (last - first) := by
  rw [Array.toList_extract, List.extract_eq_take_drop, nextRow, drop_pairSums,
    take_pairSums]
  congr 2
  omega

theorem getElem?_nextRow_congr {below old : Array Nat} {position : Nat}
    (hleft : below[2 * position]? = old[2 * position]?)
    (hright : below[2 * position + 1]? = old[2 * position + 1]?) :
    (nextRow below)[position]? = (nextRow old)[position]? := by
  simp only [nextRow, List.getElem?_toArray, getElem?_pairSums,
    Array.getElem?_toList, hleft, hright]

theorem getElem?_refreshed {row below : Array Nat} (start stop : Nat)
    {position : Nat} (hsize : below.size / 2 = row.size)
    (hlow : start / 2 ≤ position) (hhigh : position < (stop + 1) / 2) :
    (overwrite row (start / 2) (pairSums (below.extract (2 * (start / 2))
        (2 * ((stop + 1) / 2))).toList))[position]? =
      (nextRow below)[position]? := by
  rw [← size_nextRow] at hsize
  rw [pairSums_extract, getElem?_overwrite]
  simp only [List.length_take, List.length_drop, Array.length_toList,
    List.getElem?_take, List.getElem?_drop, Array.getElem?_toList]
  by_cases hinside : position < (nextRow below).size
  · rw [if_pos (by omega), if_pos (by omega), if_pos (by omega),
      Nat.add_sub_cancel' hlow]
  · rw [if_neg (by omega), Array.getElem?_eq_none (by omega),
      Array.getElem?_eq_none (by omega)]

theorem overwrite_nextRow {below old : Array Nat} {start stop : Nat}
    (hsize : below.size = old.size)
    (hsame : ∀ position, ¬(start ≤ position ∧ position < stop) →
      below[position]? = old[position]?) :
    overwrite (nextRow old) (start / 2)
        (pairSums (below.extract (2 * (start / 2))
          (2 * ((stop + 1) / 2))).toList) =
      nextRow below := by
  apply Array.ext_getElem?
  intro position
  by_cases hrun : start / 2 ≤ position ∧ position < (stop + 1) / 2
  · exact getElem?_refreshed start stop (by rw [size_nextRow, hsize]) hrun.1
      hrun.2
  · rw [pairSums_extract, getElem?_overwrite, if_neg (by simp; omega)]
    exact (getElem?_nextRow_congr (hsame _ (by omega))
      (hsame _ (by omega))).symm

theorem refreshRows_sumRows {levels : Nat} {below old : Array Nat}
    {start stop : Nat} (hbelow : below.size = 2 ^ levels)
    (hold : old.size = 2 ^ levels)
    (hsame : ∀ position, ¬(start ≤ position ∧ position < stop) →
      below[position]? = old[position]?) :
    refreshRows below start stop (sumRows levels old) =
      sumRows levels below := by
  induction levels generalizing below old start stop with
  | zero => rfl
  | succ levels ih =>
      have hrow := overwrite_nextRow (hbelow.trans hold.symm) hsame
      simp only [sumRows, refreshRows, hrow]
      rw [ih (size_nextRow_of_pow hbelow) (size_nextRow_of_pow hold)]
      intro position hposition
      exact getElem?_nextRow_congr (hsame _ (by omega)) (hsame _ (by omega))

theorem record_ofCounts {levels : Nat} {old : Array Nat}
    (hsize : old.size = 2 ^ levels) (start : Nat) (counts : List Nat) :
    (ofCounts old).record start counts =
      ofCounts (overwrite old start counts) := by
  simp only [record, ofCounts, size_overwrite]
  congr 1
  rw [hsize, Nat.log2_two_pow]
  refine refreshRows_sumRows (by rw [size_overwrite, hsize]) hsize ?_
  intro position hposition
  rw [getElem?_overwrite, if_neg hposition]

theorem nextRow_map_zero (cells : Array Nat) :
    nextRow (cells.map fun _ => 0) = (nextRow cells).map fun _ => 0 := by
  apply Array.ext_getElem?
  intro position
  simp only [nextRow, List.getElem?_toArray, getElem?_pairSums,
    Array.getElem?_map, Array.getElem?_toList]
  cases cells[2 * position]? with
  | none => rfl
  | some left => cases cells[2 * position + 1]? <;> rfl

theorem sumRows_map_zero (levels : Nat) (cells : Array Nat) :
    sumRows levels (cells.map fun _ => 0) =
      (sumRows levels cells).map fun row => row.map fun _ => 0 := by
  induction levels generalizing cells with
  | zero => rfl
  | succ levels ih =>
      rw [sumRows, sumRows, nextRow_map_zero, ih, List.map_cons]

theorem clear_ofCounts (counts : Array Nat) :
    (ofCounts counts).clear = ofCounts (counts.map fun _ => 0) := by
  rw [clear, ofCounts, ofCounts, Array.size_map, sumRows_map_zero]

/-! ## Reading -/

def rowAbove : Nat → Array Nat → Array Nat
  | 0, cells => cells
  | level + 1, cells => rowAbove level (nextRow cells)

theorem getD_sumRows {levels level : Nat} (cells : Array Nat)
    (h : level ≤ levels) :
    (cells :: sumRows levels cells).getD level #[] = rowAbove level cells := by
  induction level generalizing levels cells with
  | zero => rfl
  | succ level ih =>
      cases levels with
      | zero => omega
      | succ levels => exact ih (nextRow cells) (by omega)

theorem getElem?_rowAbove {level position : Nat} {cells : Array Nat}
    (h : (position + 1) * 2 ^ level ≤ cells.size) :
    (rowAbove level cells)[position]? =
      some ((cells.toList.drop (position * 2 ^ level)).take (2 ^ level)).sum := by
  induction level generalizing cells with
  | zero =>
      simp only [Nat.pow_zero, Nat.mul_one] at h ⊢
      rw [rowAbove, Array.getElem?_eq_getElem (by omega),
        List.drop_eq_getElem_cons
        (by simpa using h)]
      simp
  | succ level ih =>
      rw [Nat.pow_succ, ← Nat.mul_assoc] at h
      have hnext : (position + 1) * 2 ^ level ≤ (nextRow cells).size := by
        rw [size_nextRow]
        omega
      rw [Nat.add_mul, Nat.one_mul] at h
      rw [rowAbove, ih hnext, nextRow, drop_pairSums, take_pairSums,
        sum_pairSums]
      · have hstart : 2 * (position * 2 ^ level) = position * 2 ^ (level + 1) := by
          rw [Nat.pow_succ]
          ring
        rw [hstart, ← Nat.pow_succ']
      · simp only [List.length_take, List.length_drop, Array.length_toList]
        omega

theorem row_ofCounts {levels level : Nat} {counts : Array Nat}
    (hsize : counts.size = 2 ^ levels) (h : level ≤ levels) :
    (ofCounts counts).row level = rowAbove level counts := by
  rw [row, ofCounts, hsize, Nat.log2_two_pow]
  exact getD_sumRows counts h

theorem size_rowAbove (level : Nat) (cells : Array Nat) :
    (rowAbove level cells).size = cells.size / 2 ^ level := by
  induction level generalizing cells with
  | zero => rw [rowAbove, Nat.pow_zero, Nat.div_one]
  | succ level ih =>
      rw [rowAbove, ih, size_nextRow, Nat.div_div_eq_div_mul, Nat.pow_succ']

theorem getElem?_row_ofCounts {levels level : Nat} {counts : Array Nat}
    (hsize : counts.size = 2 ^ levels) (h : level ≤ levels) (position : Nat) :
    ((ofCounts counts).row level)[position]? =
      if (position + 1) * 2 ^ level ≤ counts.size then
        some ((counts.toList.drop (position * 2 ^ level)).take (2 ^ level)).sum
      else
        none := by
  rw [row_ofCounts hsize h]
  split
  · rename_i hinside
    exact getElem?_rowAbove hinside
  · rename_i houtside
    rw [Array.getElem?_eq_none]
    rw [size_rowAbove, ← Nat.lt_succ_iff,
      Nat.div_lt_iff_lt_mul (Nat.two_pow_pos level)]
    exact Nat.not_le.mp houtside

/-- Exact counters answer for every window with the sum over its segments. -/
theorem elements_ofCounts {levels start length : Nat} {counts : Array Nat}
    (hsize : counts.size = 2 ^ levels) (h : start + length ≤ counts.size) :
    (ofCounts counts).elements start length =
      ((counts.toList.drop start).take length).sum := by
  rw [elements]
  split
  · rename_i haligned
    simp only [isAligned, Bool.and_eq_true, beq_iff_eq,
      isPowerOfTwo_iff] at haligned
    obtain ⟨⟨level, rfl⟩, hstart⟩ := haligned
    obtain ⟨position, rfl⟩ := Nat.dvd_of_mod_eq_zero hstart
    have hlevel : level ≤ levels := by
      rw [hsize] at h
      exact (Nat.pow_le_pow_iff_right (a := 2) (by omega)).mp (by omega)
    rw [Nat.mul_comm] at h ⊢
    rw [Nat.log2_two_pow, row_ofCounts hsize hlevel,
      Nat.mul_div_cancel _ (Nat.two_pow_pos level),
      Array.getD_eq_getD_getElem?, getElem?_rowAbove (by
        rw [Nat.add_mul, Nat.one_mul]
        exact h)]
    rfl
  · rw [leaves_ofCounts, ← Array.foldl_toList, Array.toList_extract,
      List.extract_eq_take_drop, Nat.add_sub_cancel_left,
      List.sum_eq_foldl]

theorem total_ofCounts {levels : Nat} {counts : Array Nat}
    (hsize : counts.size = 2 ^ levels) :
    (ofCounts counts).total = counts.toList.sum := by
  have hheight : (ofCounts counts).above.length = levels := by
    rw [ofCounts, length_sumRows, hsize, Nat.log2_two_pow]
  rw [total, hheight, row_ofCounts hsize (Nat.le_refl levels),
    Array.getD_eq_getD_getElem?, getElem?_rowAbove (by omega), Option.getD_some,
    Nat.zero_mul, List.drop_zero, List.take_of_length_le (by simp [hsize])]

/-! ## Runs in other trees -/

structure Tapered (tree : CountTree) : Prop where
  size_leaves : tree.leaves.size = 2 ^ tree.above.length
  halves : ((tree.leaves :: tree.above).map Array.size).IsChain
    fun below row => below / 2 = row

theorem isChain_sumRows (levels : Nat) (cells : Array Nat) :
    ((cells :: sumRows levels cells).map Array.size).IsChain
      fun below row => below / 2 = row := by
  induction levels generalizing cells with
  | zero => exact .singleton _
  | succ levels ih => exact .cons_cons (size_nextRow cells).symm (ih _)

theorem tapered_ofCounts {levels : Nat} {counts : Array Nat}
    (hsize : counts.size = 2 ^ levels) : (ofCounts counts).Tapered := by
  refine ⟨?_, isChain_sumRows _ counts⟩
  rw [leaves_ofCounts, ofCounts, length_sumRows, hsize, Nat.log2_two_pow]

/--
Where the cells are right, so are the counters of the windows over them that a
refreshment reaches.
-/
theorem getElem?_refreshRows {below exact : Array Nat}
    {rows : List (Array Nat)} {start stop low high level position : Nat}
    (hhalves : (below.size :: rows.map Array.size).IsChain
      fun below row => below / 2 = row)
    (hstart : start ≤ low) (hstop : high ≤ stop)
    (hsame : ∀ cell, low ≤ cell → cell < high → below[cell]? = exact[cell]?)
    (hlevel : level ≤ rows.length) (hlow : low ≤ position * 2 ^ level)
    (hhigh : (position + 1) * 2 ^ level ≤ high) :
    ((below :: refreshRows below start stop rows).getD level #[])[position]? =
      (rowAbove level exact)[position]? := by
  induction level generalizing below exact rows start stop low high with
  | zero => exact hsame position (by omega) (by omega)
  | succ level ih =>
      cases rows with
      | nil => simp at hlevel
      | cons row rows =>
          obtain ⟨hsize, hrows⟩ := List.isChain_cons_cons.mp hhalves
          rw [Nat.pow_succ, ← Nat.mul_assoc] at hlow hhigh
          -- One row up, only the cells over two right ones are known.
          have hnext (cell : Nat) (hcell : (low + 1) / 2 ≤ cell)
              (hcell' : cell < high / 2) := calc
            _ = (nextRow below)[cell]? :=
              getElem?_refreshed start stop hsize (by omega) (by omega)
            _ = (nextRow exact)[cell]? :=
              getElem?_nextRow_congr (hsame _ (by omega) (by omega))
                (hsame _ (by omega) (by omega))
          refine ih ?_ ?_ ?_ hnext (Nat.le_of_succ_le_succ hlevel) (by omega)
            (by omega)
          · rwa [size_overwrite]
          · omega
          · omega

theorem Tapered.elements_record {tree : CountTree} (h : tree.Tapered)
    {start first length : Nat} {counts : List Nat}
    (hrun : start + counts.length ≤ tree.leaves.size) (hlow : start ≤ first)
    (hhigh : first + length ≤ start + counts.length) :
    (tree.record start counts).elements first length =
      (ofCounts (overwrite tree.leaves start counts)).elements first length := by
  have hsize : (overwrite tree.leaves start counts).size =
      2 ^ tree.above.length := by
    rw [size_overwrite, h.size_leaves]
  have hhalves := h.halves
  rw [List.map_cons, ← size_overwrite tree.leaves start counts] at hhalves
  rw [elements, elements]
  split
  · rename_i haligned
    simp only [isAligned, Bool.and_eq_true, beq_iff_eq,
      isPowerOfTwo_iff] at haligned
    obtain ⟨⟨level, rfl⟩, hfirst⟩ := haligned
    obtain ⟨position, rfl⟩ := Nat.dvd_of_mod_eq_zero hfirst
    have hlevel : level ≤ tree.above.length := by
      rw [h.size_leaves] at hrun
      exact (Nat.pow_le_pow_iff_right (a := 2) (by omega)).mp (by omega)
    rw [Nat.mul_comm] at hlow hhigh ⊢
    rw [← Nat.succ_mul] at hhigh
    rw [Nat.log2_two_pow, Nat.mul_div_cancel _ (Nat.two_pow_pos level),
      row_ofCounts hsize hlevel, Array.getD_eq_getD_getElem?,
      Array.getD_eq_getD_getElem?]
    exact congrArg (Option.getD · 0) (getElem?_refreshRows hhalves
      (Nat.le_refl _) (Nat.le_refl _) (fun _ _ _ => rfl) hlevel hlow hhigh)
  · rfl

end CountTree

end PackedMemory
