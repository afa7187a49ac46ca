import PackedMemory.Proofs.Index.Sorted
import PackedMemory.Proofs.Index.Tree

/-!
# Sizes of order indexes

An index that operations have built tells how many leaders it has.  A sorted
index has as many keys as leaders.  A tree reads its size off its root, so every
node has to count the keys below it, also after rotations.
-/

namespace PackedMemory

class CountingIndex (ι : Type) [OrderIndex ι] : Prop where
  size_eq {index : ι} : OrderIndex.Built index →
    OrderIndex.size index = (OrderIndex.entries index).length

instance : CountingIndex SortedIndex where
  size_eq h := by
    have hlists : SortedIndex.Lists _ _ := h.valid.1
    exact hlists.size_keys

namespace TreeIndex

inductive Sized : TreeIndex → Prop
  | leaf : Sized leaf
  | join {left right : TreeIndex} (hleft : Sized left) (leader : Leader)
      (hright : Sized right) : Sized (join left leader right)

theorem Sized.size_eq {tree : TreeIndex} (h : tree.Sized) :
    tree.size = tree.toList.length := by
  induction h with
  | leaf => rfl
  | join _ leader _ ihLeft ihRight =>
      rw [toList_join, List.length_append, List.length_cons, ← ihLeft, ← ihRight]
      change _ + 1 + _ = _
      omega

variable {left right : TreeIndex}

theorem sized_rotateLeft (hleft : left.Sized) (leader : Leader)
    (hright : right.Sized) : (rotateLeft left leader right).Sized := by
  cases hright with
  | leaf => exact hleft.join leader .leaf
  | join hinner next hright =>
      cases hinner with
      | leaf => exact (hleft.join leader .leaf).join next hright
      | join hinner top houter =>
          rw [TreeIndex.join, TreeIndex.join, rotateLeft]
          split
          · exact (hleft.join leader hinner).join top (houter.join next hright)
          · exact (hleft.join leader (hinner.join top houter)).join next hright

theorem sized_rotateRight (hright : right.Sized) (leader : Leader)
    (hleft : left.Sized) : (rotateRight right leader left).Sized := by
  cases hleft with
  | leaf => exact .join .leaf leader hright
  | join hleft next hinner =>
      cases hinner with
      | leaf => exact hleft.join next (.join .leaf leader hright)
      | join houter top hinner =>
          rw [TreeIndex.join, TreeIndex.join, rotateRight]
          split
          · exact (hleft.join next houter).join top (hinner.join leader hright)
          · exact hleft.join next ((houter.join top hinner).join leader hright)

theorem sized_balance (hleft : left.Sized) (leader : Leader)
    (hright : right.Sized) : (balance left leader right).Sized := by
  unfold balance
  split
  · exact sized_rotateLeft hleft leader hright
  · split
    · exact sized_rotateRight hright leader hleft
    · exact hleft.join leader hright

theorem sized_insert {tree : TreeIndex} (h : tree.Sized) (key : Key)
    (segment : Nat) : (tree.insert key segment).Sized := by
  induction h with
  | leaf => exact .join .leaf (key, segment) .leaf
  | join hleft leader hright ihLeft ihRight =>
      rw [TreeIndex.join, insert]
      split
      · exact sized_balance ihLeft leader hright
      · split
        · exact sized_balance hleft leader ihRight
        · exact hleft.join (key, segment) hright

theorem sized_splitLeast (hleft : left.Sized) (leader : Leader)
    (hright : right.Sized) : (splitLeast left leader right).2.Sized := by
  induction hleft generalizing leader right with
  | leaf => exact hright
  | join _ first houter ihInner _ =>
      exact sized_balance (ihInner first houter) leader hright

theorem sized_append (hleft : left.Sized) (hright : right.Sized) :
    (append left right).Sized := by
  cases hright with
  | leaf => exact hleft
  | join hinner leader houter =>
      exact sized_balance hleft _ (sized_splitLeast hinner leader houter)

theorem sized_erase {tree : TreeIndex} (h : tree.Sized) (key : Key) :
    (tree.erase key).Sized := by
  induction h with
  | leaf => exact .leaf
  | join hleft leader hright ihLeft ihRight =>
      rw [TreeIndex.join, erase]
      split
      · exact sized_balance ihLeft leader hright
      · split
        · exact sized_balance hleft leader ihRight
        · exact sized_append hleft hright

theorem sized_of_built {tree : TreeIndex} (h : OrderIndex.Built tree) :
    tree.Sized := by
  induction h with
  | empty => exact .leaf
  | inserted _ key segment ih => exact sized_insert ih key segment
  | removed _ key ih => exact sized_erase ih key
  | @updated tree _ old new ih =>
      have herase := sized_erase ih old
      simp only [OrderIndex.update]
      cases tree.find? old with
      | none => exact herase
      | some segment => exact sized_insert herase new segment
  | cleared => exact .leaf

end TreeIndex

instance : CountingIndex TreeIndex where
  size_eq h := (TreeIndex.sized_of_built h).size_eq

end PackedMemory
