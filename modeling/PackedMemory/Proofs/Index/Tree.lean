import PackedMemory.Index.Tree
import PackedMemory.Proofs.Index.Lawful

/-!
# The tree index is lawful

A search tree whose list of leaders ascends finds, inserts and erases by
comparing keys on the way down; rotations leave the list as it is.
-/

namespace PackedMemory

namespace TreeIndex

theorem mem_toList_node {size : Nat} {left right : TreeIndex}
    {leader other : Leader} :
    other ∈ (node size left leader right).toList ↔
      other ∈ left.toList ∨ other = leader ∨ other ∈ right.toList := by
  simp

theorem floor_eq_floorSegment {tree : TreeIndex}
    (h : Ascending Prod.fst tree.toList)
    (key : Key) (best : Nat) :
    tree.floor key best = floorSegment key tree.toList best := by
  induction tree generalizing best with
  | leaf => rfl
  | node size left leader right ihLeft ihRight =>
      obtain ⟨hleft, hright, hbelow, habove⟩ :=
        (ascending_append_cons_iff _ _ _).mp h
      rw [floor, toList_node]
      split
      · rename_i hkey
        rw [ihLeft hleft, floorSegment_append_of_forall_lt]
        intro other hother
        rcases List.mem_cons.mp hother with rfl | hother
        · exact hkey
        · exact Int64.lt_trans hkey (habove other hother)
      · rename_i hkey
        have hle := Int64.not_lt.mp hkey
        rw [ihRight hright, floorSegment_append, floorSegment, if_neg hkey]
        intro other hother
        exact Int64.le_of_lt (Int64.lt_of_lt_of_le (hbelow other hother) hle)

theorem find?_eq_some_iff {tree : TreeIndex} (h : Ascending Prod.fst tree.toList)
    (key : Key) (segment : Nat) :
    tree.find? key = some segment ↔ (key, segment) ∈ tree.toList := by
  induction tree with
  | leaf => simp [find?]
  | node size left leader right ihLeft ihRight =>
      obtain ⟨hleft, hright, hbelow, habove⟩ :=
        (ascending_append_cons_iff _ _ _).mp h
      rw [find?, mem_toList_node]
      split
      · rename_i hkey
        rw [ihLeft hleft]
        grind
      · split
        · rename_i hkey
          rw [ihRight hright]
          grind
        · rename_i hless hgreater
          have hkey : key = leader.1 := by grind
          subst hkey
          grind

section Node

variable {left right : List Leader} {top leader : Leader} {key : Key}
  (h : Ascending Prod.fst (left ++ top :: right))
include h

theorem ne_and_mem_iff_of_lt (hkey : key < top.1) :
    leader.1 ≠ key ∧ leader ∈ left ++ top :: right ↔
      leader.1 ≠ key ∧ leader ∈ left ∨ leader = top ∨ leader ∈ right := by
  obtain ⟨-, -, -, habove⟩ := (ascending_append_cons_iff _ _ _).mp h
  have hother : leader = top ∨ leader ∈ right → leader.1 ≠ key := by grind
  rw [List.mem_append, List.mem_cons, and_or_left, and_iff_right_of_imp hother]

theorem ne_and_mem_iff_of_gt (hkey : top.1 < key) :
    leader.1 ≠ key ∧ leader ∈ left ++ top :: right ↔
      leader ∈ left ∨ leader = top ∨ leader.1 ≠ key ∧ leader ∈ right := by
  obtain ⟨-, -, hbelow, -⟩ := (ascending_append_cons_iff _ _ _).mp h
  have hleft : leader ∈ left → leader.1 ≠ key := by grind
  have htop : leader = top → leader.1 ≠ key := by grind
  rw [List.mem_append, List.mem_cons, and_or_left, and_or_left,
    and_iff_right_of_imp hleft, and_iff_right_of_imp htop]

theorem ne_and_mem_iff_of_eq (hkey : top.1 = key) :
    leader.1 ≠ key ∧ leader ∈ left ++ top :: right ↔
      leader ∈ left ∨ leader ∈ right := by
  obtain ⟨-, -, hbelow, habove⟩ := (ascending_append_cons_iff _ _ _).mp h
  have hother : leader ∈ left ∨ leader ∈ right → leader.1 ≠ key := by grind
  have htop : leader = top → leader.1 = key := by grind
  rw [List.mem_append, List.mem_cons]
  grind

end Node

/-! ## Insertion -/

theorem mem_toList_insert {tree : TreeIndex} (h : Ascending Prod.fst tree.toList)
    (key : Key) (segment : Nat) (leader : Leader) :
    leader ∈ (tree.insert key segment).toList ↔
      leader = (key, segment) ∨ leader.1 ≠ key ∧ leader ∈ tree.toList := by
  induction tree with
  | leaf => simp [insert]
  | node size left top right ihLeft ihRight =>
      obtain ⟨hleft, hright, -⟩ := (ascending_append_cons_iff _ _ _).mp h
      rw [insert, toList_node]
      split
      · rename_i hkey
        rw [toList_balance, List.mem_append, List.mem_cons, ihLeft hleft,
          ne_and_mem_iff_of_lt h hkey, or_assoc]
      · split
        · rename_i hkey
          rw [toList_balance, List.mem_append, List.mem_cons, ihRight hright,
            ne_and_mem_iff_of_gt h hkey, ← or_assoc, or_left_comm,
            or_assoc]
        · rename_i hless hgreater
          have hkey : top.1 = key := by grind
          rw [toList_node, List.mem_append, List.mem_cons, or_left_comm,
            ne_and_mem_iff_of_eq h hkey]

theorem ascending_insert {tree : TreeIndex} (h : Ascending Prod.fst tree.toList)
    (key : Key) (segment : Nat) :
    Ascending Prod.fst (tree.insert key segment).toList := by
  induction tree with
  | leaf => simp [insert, Ascending]
  | node size left top right ihLeft ihRight =>
      obtain ⟨hleft, hright, hbelow, habove⟩ :=
        (ascending_append_cons_iff _ _ _).mp h
      rw [insert]
      split
      · rename_i hkey
        rw [toList_balance, ascending_append_cons_iff]
        refine ⟨ihLeft hleft, hright, ?_, habove⟩
        intro other hother
        rcases (mem_toList_insert hleft _ _ _).mp hother with rfl | ⟨-, hmem⟩
        · exact hkey
        · exact hbelow other hmem
      · split
        · rename_i hkey
          rw [toList_balance, ascending_append_cons_iff]
          refine ⟨hleft, ihRight hright, hbelow, ?_⟩
          intro other hother
          rcases (mem_toList_insert hright _ _ _).mp hother with rfl | ⟨-, hmem⟩
          · exact hkey
          · exact habove other hmem
        · rename_i hless hgreater
          have hkey : top.1 = key := by grind
          rw [toList_node, ascending_append_cons_iff, ← hkey]
          exact ⟨hleft, hright, hbelow, habove⟩

/-! ## Removal -/

theorem toList_erase_sublist (tree : TreeIndex) (key : Key) :
    (tree.erase key).toList.Sublist tree.toList := by
  induction tree with
  | leaf => exact List.Sublist.refl _
  | node size left top right ihLeft ihRight =>
      rw [erase, toList_node]
      split
      · rw [toList_balance]
        exact ihLeft.append_right _
      · split
        · rw [toList_balance]
          exact (ihRight.cons_cons top).append_left _
        · rw [toList_append]
          exact (List.sublist_cons_self top _).append_left _

theorem mem_toList_erase {tree : TreeIndex} (h : Ascending Prod.fst tree.toList)
    (key : Key) (leader : Leader) :
    leader ∈ (tree.erase key).toList ↔
      leader.1 ≠ key ∧ leader ∈ tree.toList := by
  induction tree with
  | leaf => simp [erase]
  | node size left top right ihLeft ihRight =>
      obtain ⟨hleft, hright, -⟩ := (ascending_append_cons_iff _ _ _).mp h
      rw [erase, toList_node]
      split
      · rename_i hkey
        rw [toList_balance, List.mem_append, List.mem_cons, ihLeft hleft,
          ne_and_mem_iff_of_lt h hkey]
      · split
        · rename_i hkey
          rw [toList_balance, List.mem_append, List.mem_cons, ihRight hright,
            ne_and_mem_iff_of_gt h hkey]
        · rename_i hless hgreater
          have hkey : top.1 = key := by grind
          rw [toList_append, List.mem_append, ne_and_mem_iff_of_eq h hkey]

theorem ascending_erase {tree : TreeIndex} (h : Ascending Prod.fst tree.toList)
    (key : Key) : Ascending Prod.fst (tree.erase key).toList :=
  List.Pairwise.sublist (toList_erase_sublist tree key) h

theorem update_eq_of_mem {tree : TreeIndex} (h : Ascending Prod.fst tree.toList)
    {old : Key} {segment : Nat} (hmem : (old, segment) ∈ tree.toList)
    (new : Key) :
    OrderIndex.update tree old new = (tree.erase old).insert new segment := by
  have hfind := (find?_eq_some_iff h old segment).mpr hmem
  simp only [OrderIndex.update, hfind]

theorem toList_update_of_absent {tree : TreeIndex}
    (h : Ascending Prod.fst tree.toList)
    {old : Key} (habsent : ∀ segment, (old, segment) ∉ tree.toList)
    (new : Key) : (OrderIndex.update tree old new).toList = tree.toList := by
  have hfind : tree.find? old = none := by
    cases hcase : tree.find? old with
    | none => rfl
    | some segment =>
        exact absurd ((find?_eq_some_iff h old segment).mp hcase)
          (habsent segment)
  simp only [OrderIndex.update, hfind]
  apply (ascending_erase h old).eq_of_mem_iff h
  intro leader
  rw [mem_toList_erase h]
  constructor
  · exact And.right
  · intro hleader
    refine ⟨?_, hleader⟩
    rintro rfl
    exact habsent leader.2 hleader

end TreeIndex

instance : LawfulIndex TreeIndex where
  Valid tree := Ascending Prod.fst tree.toList
  ascending h := h
  predecessor_eq h key := TreeIndex.floor_eq_floorSegment h key 0
  valid_empty := List.Pairwise.nil
  entries_empty := rfl
  valid_clear _ := List.Pairwise.nil
  entries_clear _ := rfl
  valid_insert h := TreeIndex.ascending_insert h
  mem_insert h := TreeIndex.mem_toList_insert h
  valid_removeAny h := TreeIndex.ascending_erase h
  mem_removeAny h := TreeIndex.mem_toList_erase h
  removeAny_eq_some_iff h := TreeIndex.find?_eq_some_iff h
  valid_update := by
    intro tree h old new
    by_cases hmem : ∃ segment, (old, segment) ∈ tree.toList
    · obtain ⟨segment, hmem⟩ := hmem
      rw [TreeIndex.update_eq_of_mem h hmem]
      exact TreeIndex.ascending_insert (TreeIndex.ascending_erase h old) _ _
    · rw [TreeIndex.toList_update_of_absent h (not_exists.mp hmem)]
      exact h
  mem_update := by
    intro tree h old segment hmem new leader
    rw [TreeIndex.update_eq_of_mem h hmem]
    have hinsert := TreeIndex.mem_toList_insert
      (TreeIndex.ascending_erase h old) new segment leader
    rw [TreeIndex.mem_toList_erase h] at hinsert
    exact hinsert
  entries_update_of_absent h _ habsent :=
    TreeIndex.toList_update_of_absent h habsent

end PackedMemory
