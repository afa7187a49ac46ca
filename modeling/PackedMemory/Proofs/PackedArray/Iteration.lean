import PackedMemory.Proofs.PackedArray.Range

/-!
# Iteration from both ends

A cursor is read at either end, in any order.  What one end gives comes off the
list of entries that are left, at that end, so both ends together give every
entry once.  When nothing is left neither end gives anything more.
-/

namespace PackedMemory

namespace Cursor

inductive End where
  | front
  | back
deriving DecidableEq, Repr

/-- A list with one more entry at one of its ends. -/
def End.put (side : End) (entry : Entry) (entries : List Entry) : List Entry :=
  match side with
  | .front => entry :: entries
  | .back => entries ++ [entry]

@[simp] theorem End.length_put (side : End) (entry : Entry)
    (entries : List Entry) :
    (side.put entry entries).length = entries.length + 1 := by
  cases side <;> simp [put]

def read (cursor : Cursor) : End → Option Entry × Cursor
  | .front => cursor.next
  | .back => cursor.nextBack

def readAll (cursor : Cursor) : List End → List (Option Entry) × Cursor
  | [] => ([], cursor)
  | side :: sides =>
      let (answer, next) := cursor.read side
      let (answers, last) := next.readAll sides
      (answer :: answers, last)

def given (side : End) (sides : List End) (answers : List (Option Entry)) :
    List Entry :=
  (sides.zip answers).filterMap fun (asked, answer) =>
    if asked = side then answer else none

theorem entries_of_read_some {cursor next : Cursor} {side : End} {entry : Entry}
    (h : cursor.read side = (some entry, next)) :
    cursor.entries = side.put entry next.entries := by
  cases side with
  | front => exact entries_of_next_some h
  | back => exact entries_of_nextBack_some h

theorem entries_of_read_none {cursor next : Cursor} {side : End}
    (h : cursor.read side = (none, next)) :
    cursor.entries = [] ∧ next.entries = [] := by
  cases side with
  | front => exact entries_of_next_none h
  | back => exact entries_of_nextBack_none h

theorem given_cons_none (side other : End) (sides : List End)
    (answers : List (Option Entry)) :
    given side (other :: sides) (none :: answers) = given side sides answers := by
  rw [given, List.zip_cons_cons, List.filterMap_cons]
  split <;> simp_all [given]

theorem given_cons_some_self (side : End) (entry : Entry) (sides : List End)
    (answers : List (Option Entry)) :
    given side (side :: sides) (some entry :: answers) =
      entry :: given side sides answers := by
  simp [given]

theorem given_cons_some_ne {side other : End} (h : other ≠ side) (entry : Entry)
    (sides : List End) (answers : List (Option Entry)) :
    given side (other :: sides) (some entry :: answers) =
      given side sides answers := by
  simp [given, h]

/-! ## Any calls -/

structure ReadsOut (all : List Entry) (sides : List End)
    (answers : List (Option Entry)) (rest : Cursor) : Prop where
  length_answers : answers.length = sides.length
  eq_append : all =
    given .front sides answers ++ rest.entries ++
      (given .back sides answers).reverse
  nothing_left : none ∈ answers → rest.entries = []
  none_iff : ∀ position < sides.length,
    answers[position]? = some none ↔ all.length ≤ position
  length_rest_le : rest.entries.length ≤ rest.remaining

variable {all : List Entry} {sides : List End} {answers : List (Option Entry)}
  {rest : Cursor}

theorem ReadsOut.cons_some (h : ReadsOut all sides answers rest) (side : End)
    (entry : Entry) :
    ReadsOut (side.put entry all) (side :: sides) (some entry :: answers)
      rest where
  length_answers := by
    rw [List.length_cons, List.length_cons, h.length_answers]
  eq_append := by
    cases side with
    | front =>
        rw [given_cons_some_self, given_cons_some_ne (by decide), End.put]
        exact congrArg (entry :: ·) h.eq_append
    | back =>
        rw [given_cons_some_self, given_cons_some_ne (by decide), End.put,
          List.reverse_cons, ← List.append_assoc, ← h.eq_append]
  nothing_left hnone :=
    h.nothing_left (List.mem_of_ne_of_mem (by simp) hnone)
  none_iff := by
    intro position hposition
    rw [End.length_put]
    cases position with
    | zero => simp
    | succ position =>
        rw [List.length_cons] at hposition
        rw [List.getElem?_cons_succ, h.none_iff position (by omega)]
        exact Nat.succ_le_succ_iff.symm
  length_rest_le := h.length_rest_le

theorem ReadsOut.cons_none (h : ReadsOut [] sides answers rest) (side : End) :
    ReadsOut [] (side :: sides) (none :: answers) rest where
  length_answers := by
    rw [List.length_cons, List.length_cons, h.length_answers]
  eq_append := by
    rw [given_cons_none, given_cons_none]
    exact h.eq_append
  nothing_left _ := by
    have hall := h.eq_append
    rw [List.nil_eq_append_iff, List.append_eq_nil_iff] at hall
    exact hall.1.2
  none_iff := by
    intro position hposition
    cases position with
    | zero => simp
    | succ position =>
        rw [List.length_cons] at hposition
        rw [List.getElem?_cons_succ, h.none_iff position (by omega)]
        simp
  length_rest_le := h.length_rest_le

theorem readsOut (cursor : Cursor) (sides : List End) :
    ReadsOut cursor.entries sides (cursor.readAll sides).1
      (cursor.readAll sides).2 := by
  induction sides generalizing cursor with
  | nil =>
      refine ⟨rfl, (List.append_nil _).symm, by simp [readAll], ?_,
        cursor.length_entries_le⟩
      intro position hposition
      contradiction
  | cons side sides ih =>
      rw [readAll]
      -- The other calls read a cursor over what the first one has left.
      rcases hread : cursor.read side with ⟨_ | entry, next⟩
      · obtain ⟨hentries, hnext⟩ := entries_of_read_none hread
        have hrest := ih next
        rw [hnext] at hrest
        rw [hentries]
        exact hrest.cons_none side
      · rw [entries_of_read_some hread]
        exact (ih next).cons_some side entry

/-! ## What the two ends give -/

theorem ReadsOut.front_first (h : ReadsOut all sides answers rest) :
    given .front sides answers <+: all :=
  ⟨rest.entries ++ (given .back sides answers).reverse, by
    rw [← List.append_assoc, ← h.eq_append]⟩

theorem ReadsOut.back_last (h : ReadsOut all sides answers rest) :
    given .back sides answers <+: all.reverse := by
  refine ⟨(given .front sides answers ++ rest.entries).reverse, ?_⟩
  conv_rhs => rw [h.eq_append, List.reverse_append, List.reverse_reverse]

theorem ReadsOut.eq_append_of_none (h : ReadsOut all sides answers rest)
    (hnone : none ∈ answers) :
    all = given .front sides answers ++ (given .back sides answers).reverse := by
  have hall := h.eq_append
  rwa [h.nothing_left hnone, List.append_nil] at hall

theorem ReadsOut.none_of_none (h : ReadsOut all sides answers rest)
    {earlier later : Nat} (hle : earlier ≤ later) (hlater : later < sides.length)
    (hnone : answers[earlier]? = some none) : answers[later]? = some none := by
  have hall := (h.none_iff earlier (Nat.lt_of_le_of_lt hle hlater)).mp hnone
  exact (h.none_iff later hlater).mpr (Nat.le_trans hall hle)

end Cursor

namespace PackedArray

variable {ρ ι : Type} [OrderIndex ι] {array : PackedArray ρ ι}

open Cursor (End given)

/--
A cursor over the entries of an array whose keys meet a condition, and what
calls at its two ends give: a beginning of the ascending list, a beginning of
its reverse, and all of it before either end gives nothing.
-/
structure Iterates (array : PackedArray ρ ι) (condition : Key → Prop)
    (cursor : Cursor) : Prop where
  ascending : Ascending Entry.key cursor.entries
  mem_iff : ∀ entry, entry ∈ cursor.entries ↔
    array.find? entry.key = some entry.value ∧ condition entry.key
  readsOut : ∀ sides, Cursor.ReadsOut cursor.entries sides
    (cursor.readAll sides).1 (cursor.readAll sides).2
  front_first : ∀ sides,
    given .front sides (cursor.readAll sides).1 <+: cursor.entries
  back_last : ∀ sides,
    given .back sides (cursor.readAll sides).1 <+: cursor.entries.reverse
  once : ∀ sides, none ∈ (cursor.readAll sides).1 →
    cursor.entries = given .front sides (cursor.readAll sides).1 ++
      (given .back sides (cursor.readAll sides).1).reverse
  fused : ∀ sides earlier later, earlier ≤ later → later < sides.length →
    (cursor.readAll sides).1[earlier]? = some none →
      (cursor.readAll sides).1[later]? = some none

theorem iterates {condition : Key → Prop} {cursor : Cursor}
    (hascending : Ascending Entry.key cursor.entries)
    (hmem : ∀ entry, entry ∈ cursor.entries ↔
      array.find? entry.key = some entry.value ∧ condition entry.key) :
    Iterates array condition cursor where
  ascending := hascending
  mem_iff := hmem
  readsOut := cursor.readsOut
  front_first sides := (cursor.readsOut sides).front_first
  back_last sides := (cursor.readsOut sides).back_last
  once sides := (cursor.readsOut sides).eq_append_of_none
  fused sides _ _ hle hlater := (cursor.readsOut sides).none_of_none hle hlater

/-- Every cursor over an array or a range gives every entry of it once. -/
theorem cursors_iterate [Quantity ρ] [LawfulIndex ι] {config : Config ρ}
    (h : Reachable config array) :
    Iterates array (fun _ => True) array.cursor ∧
      ∀ least greatest, ∃ cursor, array.range least greatest = .ok cursor ∧
        Iterates array (fun key => least ≤ key ∧ key ≤ greatest) cursor := by
  have harray := h.consistent
  constructor
  · refine iterates ?_ fun entry => ?_
    · rw [entries_cursor harray.exact]
      exact harray.ascending
    · rw [entries_cursor harray.exact, and_true, harray.find?_eq_some_iff]
  · intro least greatest
    obtain ⟨cursor, hrange, hascending, hmem⟩ :=
      harray.exists_range least greatest
    exact ⟨cursor, hrange, iterates hascending hmem⟩

theorem cursors_iterate_sixEntries :
    (Iterates (sixEntries SortedIndex) (fun _ => True)
        (sixEntries SortedIndex).cursor ∧
      ∃ cursor, (sixEntries SortedIndex).range 2 5 = .ok cursor ∧
        Iterates (sixEntries SortedIndex) (fun key => 2 ≤ key ∧ key ≤ 5)
          cursor) ∧
    Iterates (sixEntries TreeIndex) (fun _ => True)
        (sixEntries TreeIndex).cursor ∧
      ∃ cursor, (sixEntries TreeIndex).range 2 5 = .ok cursor ∧
        Iterates (sixEntries TreeIndex) (fun key => 2 ≤ key ∧ key ≤ 5)
          cursor :=
  ⟨(cursors_iterate reachable_sixEntries).imp_right fun h => h 2 5,
    (cursors_iterate reachable_sixEntries).imp_right fun h => h 2 5⟩

/-- The two ends meet, and stay where they have met. -/
example :
    ((sixEntries SortedIndex).cursor.readAll
      [.front, .back, .back, .front, .back, .front, .back, .front]).1 =
        [some ⟨1, 10⟩, some ⟨6, 60⟩, some ⟨5, 50⟩, some ⟨2, 20⟩,
          some ⟨4, 40⟩, some ⟨3, 30⟩, none, none] := by
  decide +kernel

end PackedArray

end PackedMemory
