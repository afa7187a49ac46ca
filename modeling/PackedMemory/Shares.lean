/-!
# Sharing elements out

A list is cut into consecutive pieces of nearly equal length, the longer ones
first.
-/

namespace PackedMemory

variable {α : Type}

/--
How many of `count` elements each of `length` segments gets: equally many, and
the first ones one more each while the division leaves a remainder.
-/
def shares (count length : Nat) : List Nat :=
  (List.range length).map fun position =>
    count / length + if position < count % length then 1 else 0

def deal : List Nat → List α → List (List α)
  | [], _ => []
  | share :: rest, items => items.take share :: deal rest (items.drop share)

@[simp] theorem length_shares (count length : Nat) :
    (shares count length).length = length := by
  simp [shares]

theorem le_of_mem_shares {count length capacity share : Nat}
    (h : count ≤ length * capacity) (hshare : share ∈ shares count length) :
    share ≤ capacity := by
  simp only [shares, List.mem_map, List.mem_range] at hshare
  obtain ⟨position, hposition, rfl⟩ := hshare
  have hwhole := Nat.div_add_mod count length
  have hbound : count / length ≤ capacity :=
    Nat.div_le_of_le_mul h
  split
  · rename_i hremainder
    by_cases hfull : count / length = capacity
    · rw [hfull] at hwhole
      omega
    · omega
  · omega

@[simp] theorem length_deal (parts : List Nat) (items : List α) :
    (deal parts items).length = parts.length := by
  induction parts generalizing items with
  | nil => rfl
  | cons share rest ih => simp [deal, ih]

end PackedMemory
