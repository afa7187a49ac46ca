import PackedMemory.PackedArray.Range
import PackedMemory.Proofs.Storage.Exact

/-!
# Positions

In a storage of equal segments the positions number the slots from left to
right.  A run of positions has the entries of a run of slots, a cursor over it
yields them from left to right, and over all positions it yields all entries.
-/

namespace PackedMemory

theorem length_flatten_of_length {α : Type} {rows : List (List α)}
    {width : Nat} (hlength : ∀ row ∈ rows, row.length = width) :
    rows.flatten.length = rows.length * width := by
  have hlengths : ∀ length ∈ rows.map List.length, length = width := by
    intro length hmem
    obtain ⟨row, hrow, rfl⟩ := List.mem_map.mp hmem
    exact hlength row hrow
  rw [List.length_flatten, List.sum_eq_card_nsmul _ _ hlengths,
    List.length_map, smul_eq_mul]

theorem take_flatten_of_length {α : Type} {rows : List (List α)}
    {width : Nat} (hlength : ∀ row ∈ rows, row.length = width) (number : Nat) :
    rows.flatten.take (number * width) = (rows.take number).flatten := by
  induction rows generalizing number with
  | nil => simp
  | cons row rows ih =>
      obtain ⟨rfl, hrows⟩ := List.forall_mem_cons.mp hlength
      cases number with
      | zero => simp
      | succ number =>
          rw [Nat.succ_mul, Nat.add_comm, List.flatten_cons,
            List.take_length_add_append, ih hrows, List.take_succ_cons,
            List.flatten_cons]

theorem drop_flatten_of_length {α : Type} {rows : List (List α)}
    {width : Nat} (hlength : ∀ row ∈ rows, row.length = width) (number : Nat) :
    rows.flatten.drop (number * width) = (rows.drop number).flatten := by
  induction rows generalizing number with
  | nil => simp
  | cons row rows ih =>
      obtain ⟨rfl, hrows⟩ := List.forall_mem_cons.mp hlength
      cases number with
      | zero => simp
      | succ number =>
          rw [Nat.succ_mul, Nat.add_comm, List.flatten_cons,
            List.drop_length_add_append, ih hrows, List.drop_succ_cons]

theorem getElem?_flatten_of_length {α : Type} {rows : List (List α)}
    {width : Nat} (hwidth : 0 < width)
    (hlength : ∀ row ∈ rows, row.length = width) (position : Nat) :
    rows.flatten[position]? =
      rows[position / width]?.bind fun row => row[position % width]? := by
  induction rows generalizing position with
  | nil => rfl
  | cons row rows ih =>
      obtain ⟨hrow, hrows⟩ := List.forall_mem_cons.mp hlength
      rw [List.flatten_cons]
      rcases Nat.lt_or_ge position width with hlt | hge
      · rw [List.getElem?_append_left (hrow ▸ hlt), Nat.div_eq_of_lt hlt,
          Nat.mod_eq_of_lt hlt]
        rfl
      · obtain ⟨rest, rfl⟩ := Nat.exists_eq_add_of_le hge
        rw [List.getElem?_append_right (by omega), hrow, Nat.add_sub_cancel_left,
          ih hrows, Nat.add_div_left rest hwidth, Nat.add_mod_left,
          List.getElem?_cons_succ]

theorem flatten_set_of_length {α : Type} {rows : List (List α)} {row : List α}
    {width number offset : Nat} (hlength : ∀ row ∈ rows, row.length = width)
    (hrow : rows[number]? = some row) (hoffset : offset < width) (item : α) :
    (rows.set number (row.set offset item)).flatten =
      rows.flatten.set (number * width + offset) item := by
  induction rows generalizing number with
  | nil => contradiction
  | cons first rest ih =>
      obtain ⟨hfirst, hrest⟩ := List.forall_mem_cons.mp hlength
      cases number with
      | zero =>
          obtain rfl : first = row := Option.some.inj hrow
          rw [List.set_cons_zero, List.flatten_cons, List.flatten_cons,
            Nat.zero_mul, Nat.zero_add, List.set_append_left _ _ (by omega)]
      | succ number =>
          have hposition : (number + 1) * width + offset =
              first.length + (number * width + offset) := by
            rw [hfirst, Nat.succ_mul]
            omega
          rw [List.set_cons_succ, List.flatten_cons, List.flatten_cons,
            ih hrest hrow, hposition,
            List.set_append_right _ _ (Nat.le_add_right _ _),
            Nat.add_sub_cancel_left]

namespace Storage

variable {storage : Storage}

theorem Exact.length_slots (h : storage.Exact) :
    storage.slots.length = storage.capacity :=
  length_flatten_of_length fun segment hsegment =>
    h.length_segment segment (Array.mem_toList_iff.mp hsegment)

theorem Exact.slotAt_eq (h : storage.Exact) (position : Nat) :
    storage.slotAt position = storage.slots[position]?.join := by
  have hwidth := h.shaped.two_le_segmentCapacity
  rw [slots, getElem?_flatten_of_length (by omega) fun segment hsegment =>
      h.length_segment segment (Array.mem_toList_iff.mp hsegment),
    slotAt, Array.getD_eq_getD_getElem?, Array.getElem?_toList]
  cases storage.segments[position / storage.segmentCapacity]? with
  | none => rfl
  | some segment =>
      rw [Option.getD_some, List.getD_eq_getElem?_getD, Option.bind_some]
      cases segment[position % storage.segmentCapacity]? <;> rfl

theorem Exact.entriesIn_eq (h : storage.Exact) (position count : Nat) :
    storage.entriesIn position count =
      ((storage.slots.drop position).take count).filterMap id := by
  induction count generalizing position with
  | zero => rfl
  | succ count ih =>
      rw [entriesIn_succ, ih, h.slotAt_eq]
      rcases Nat.lt_or_ge position storage.slots.length with hlt | hge
      · rw [List.drop_eq_getElem_cons hlt, List.take_succ_cons,
          List.filterMap_cons, List.getElem?_eq_getElem hlt]
        cases storage.slots[position] <;> rfl
      · rw [List.drop_eq_nil_of_le hge, List.drop_eq_nil_of_le (by omega),
          List.getElem?_eq_none hge, List.take_nil, List.take_nil]
        rfl

theorem Exact.entriesIn_capacity (h : storage.Exact) :
    storage.entriesIn 0 storage.capacity = storage.entries := by
  rw [h.entriesIn_eq, List.drop_zero, List.take_of_length_le h.length_slots.le,
    entries_eq_filterMap]

theorem Exact.slotAt_eq_some_iff (h : storage.Exact) {position : Nat}
    {entry : Entry} : storage.slotAt position = some entry ↔
      storage.slots[position]? = some (some entry) := by
  rw [h.slotAt_eq, Option.join_eq_some_iff]

theorem Exact.lt_capacity (h : storage.Exact) {position : Nat} {entry : Entry}
    (hslot : storage.slotAt position = some entry) :
    position < storage.capacity := by
  rw [← h.length_slots]
  exact (List.getElem?_eq_some_iff.mp (h.slotAt_eq_some_iff.mp hslot)).1

theorem Exact.mem_entries_iff (h : storage.Exact) {entry : Entry} :
    entry ∈ storage.entries ↔
      ∃ position, storage.slotAt position = some entry := by
  simp only [entries_eq_filterMap, List.mem_filterMap, id_eq,
    exists_eq_right, h.slotAt_eq_some_iff]
  exact List.mem_iff_getElem?

theorem mem_entriesIn_iff {position count : Nat} {entry : Entry} :
    entry ∈ storage.entriesIn position count ↔ ∃ other, position ≤ other ∧
      other < position + count ∧ storage.slotAt other = some entry := by
  simp only [entriesIn, List.mem_filterMap, List.mem_range'_1, and_assoc]

theorem Exact.key_lt_of_lt (h : storage.Exact)
    (hascending : Ascending Entry.key storage.entries) {left right : Nat}
    {first second : Entry} (hfirst : storage.slotAt left = some first)
    (hsecond : storage.slotAt right = some second) (hlt : left < right) :
    first.key < second.key := by
  rw [Ascending, entries_eq_filterMap, List.pairwise_filterMap,
    List.pairwise_iff_getElem] at hascending
  obtain ⟨hleft, hleftSlot⟩ :=
    List.getElem?_eq_some_iff.mp (h.slotAt_eq_some_iff.mp hfirst)
  obtain ⟨hright, hrightSlot⟩ :=
    List.getElem?_eq_some_iff.mp (h.slotAt_eq_some_iff.mp hsecond)
  exact hascending left right hleft hright hlt first hleftSlot second hrightSlot

theorem Exact.ascending_entriesIn (h : storage.Exact)
    (hascending : Ascending Entry.key storage.entries) (position count : Nat) :
    Ascending Entry.key (storage.entriesIn position count) := by
  rw [entries_eq_filterMap] at hascending
  rw [h.entriesIn_eq]
  exact hascending.sublist
    (((List.take_sublist _ _).trans (List.drop_sublist _ _)).filterMap id)

end Storage

inductive Cursor.Yields : Cursor → List Entry → Prop
  | done {cursor rest : Cursor} (h : cursor.next = (none, rest)) :
      Yields cursor []
  | more {cursor rest : Cursor} {entry : Entry} {entries : List Entry}
      (h : cursor.next = (some entry, rest)) (hrest : Yields rest entries) :
      Yields cursor (entry :: entries)

theorem Cursor.yields_entries (cursor : Cursor) :
    cursor.Yields cursor.entries := by
  generalize hentries : cursor.entries = entries
  induction entries generalizing cursor with
  | nil =>
      rcases hnext : cursor.next with ⟨_ | entry, rest⟩
      · exact .done hnext
      · rw [Cursor.entries_of_next_some hnext] at hentries
        contradiction
  | cons entry entries ih =>
      rcases hnext : cursor.next with ⟨_ | found, rest⟩
      · rw [(Cursor.entries_of_next_none hnext).1] at hentries
        contradiction
      · rw [Cursor.entries_of_next_some hnext] at hentries
        obtain ⟨rfl, hrest⟩ := List.cons.inj hentries
        exact .more hnext (ih rest hrest)

theorem PackedArray.entries_cursor {ρ ι : Type} {array : PackedArray ρ ι}
    (h : array.storage.Exact) : array.cursor.entries = array.storage.entries :=
  h.entriesIn_capacity

end PackedMemory
