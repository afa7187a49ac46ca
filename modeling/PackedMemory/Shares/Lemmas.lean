import Mathlib
import PackedMemory.Shares

/-!
# Shares add up

The shares of a number add up to it, and dealing a list out by them loses
nothing.
-/

namespace PackedMemory

variable {α : Type}

theorem sum_take_shares {count length run : Nat} (h : run ≤ length) :
    ((shares count length).take run).sum =
      run * (count / length) + min run (count % length) := by
  rw [shares, ← List.map_take, List.take_range, Nat.min_eq_left h]
  induction run with
  | zero => simp
  | succ run ih =>
      rw [List.range_succ, List.map_append, List.sum_append, ih (by omega)]
      simp only [List.map_cons, List.map_nil, List.sum_cons, List.sum_nil]
      rw [Nat.add_mul]
      split <;> omega

theorem sum_shares {count length : Nat} (h : 0 < length) :
    (shares count length).sum = count := by
  have hwhole : (shares count length).take length = shares count length :=
    List.take_of_length_le (length_shares count length).le
  have hrest := Nat.mod_lt count h
  rw [← hwhole, sum_take_shares (Nat.le_refl length),
    Nat.min_eq_right hrest.le]
  exact Nat.div_add_mod count length

theorem flatten_deal {parts : List Nat} {items : List α}
    (h : items.length ≤ parts.sum) : (deal parts items).flatten = items := by
  induction parts generalizing items with
  | nil => simp_all [deal]
  | cons share rest ih =>
      simp only [List.sum_cons] at h
      simp only [deal, List.flatten_cons]
      rw [ih (by simp; omega), List.take_append_drop]

theorem map_length_deal {parts : List Nat} {items : List α}
    (h : parts.sum ≤ items.length) :
    (deal parts items).map List.length = parts := by
  induction parts generalizing items with
  | nil => rfl
  | cons share rest ih =>
      simp only [List.sum_cons] at h
      simp only [deal, List.map_cons]
      rw [ih (by simp; omega)]
      simp
      omega

end PackedMemory
