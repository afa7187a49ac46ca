/-!
# Overwriting a run of cells

Slots and counters change in runs of consecutive cells.  The cells beside a run
keep what they hold.
-/

namespace PackedMemory

variable {α : Type}

def overwrite (cells : Array α) (start : Nat) : List α → Array α
  | [] => cells
  | value :: values =>
      overwrite (cells.setIfInBounds start value) (start + 1) values

@[simp] theorem size_overwrite (cells : Array α) (start : Nat)
    (values : List α) :
    (overwrite cells start values).size = cells.size := by
  induction values generalizing cells start with
  | nil => rfl
  | cons value values ih => simp [overwrite, ih]

theorem getElem?_overwrite (cells : Array α) (start : Nat) (values : List α)
    (position : Nat) :
    (overwrite cells start values)[position]? =
      if start ≤ position ∧ position < start + values.length then
        if position < cells.size then values[position - start]? else none
      else
        cells[position]? := by
  induction values generalizing cells start with
  | nil =>
      simp only [overwrite, List.length_nil]
      rw [if_neg (by omega)]
  | cons value values ih =>
      rw [overwrite, ih]
      simp only [List.length_cons, Array.size_setIfInBounds]
      by_cases hfirst : position = start
      · subst hfirst
        rw [if_neg (by omega), if_pos (by omega)]
        by_cases hsize : position < cells.size
        · simp [hsize]
        · simp [hsize]
      · by_cases hrun : start + 1 ≤ position ∧
            position < start + 1 + values.length
        · have hwhole : start ≤ position ∧
              position < start + (values.length + 1) := by
            omega
          have hindex : position - start = position - (start + 1) + 1 := by
            omega
          rw [if_pos hrun, if_pos hwhole, hindex, List.getElem?_cons_succ]
        · rw [if_neg hrun, if_neg (by omega)]
          exact Array.getElem?_setIfInBounds_ne (Ne.symm hfirst)

theorem toList_overwrite (cells : Array α) (start : Nat) (values : List α)
    (h : start + values.length ≤ cells.size) :
    (overwrite cells start values).toList =
      cells.toList.take start ++ values ++
        cells.toList.drop (start + values.length) := by
  apply List.ext_getElem?
  intro position
  rw [Array.getElem?_toList, getElem?_overwrite]
  by_cases hbefore : position < start
  · rw [if_neg (by omega), List.append_assoc,
      List.getElem?_append_left (by simp; omega), List.getElem?_take_of_lt hbefore]
    simp
  · by_cases hrun : position < start + values.length
    · rw [if_pos (by omega), if_pos (by omega),
        List.getElem?_append_left (by simp; omega),
        List.getElem?_append_right (by simp; omega)]
      congr 1
      simp
      omega
    · rw [if_neg (by omega), List.getElem?_append_right (by simp; omega)]
      simp only [List.length_append, List.length_take, Array.length_toList,
        List.getElem?_drop, Array.getElem?_toList]
      congr 1
      omega

end PackedMemory
