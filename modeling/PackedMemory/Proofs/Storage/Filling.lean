import PackedMemory.Proofs.Cursor
import PackedMemory.Proofs.Leaders
import PackedMemory.Proofs.Storage.History

/-!
# Filling and draining

A window is filled slot by slot: each segment takes its share of the entries, the
first at its first slot and the others at even distances.  A segment has at least
as many slots as it takes entries, so no two of them meet.  Draining the window
takes out what was filled in, and leaves no trace of it.
-/

namespace PackedMemory

def writeAll (slots : List Slot) (positions : List Nat)
    (entries : List Entry) : List Slot :=
  (positions.zip entries).foldl
    (fun slots (position, entry) => slots.set position (some entry)) slots

@[simp] theorem writeAll_nil (slots : List Slot) (entries : List Entry) :
    writeAll slots [] entries = slots := rfl

theorem writeAll_cons (slots : List Slot) (position : Nat)
    (positions : List Nat) (entry : Entry) (entries : List Entry) :
    writeAll slots (position :: positions) (entry :: entries) =
      writeAll (slots.set position (some entry)) positions entries := rfl

theorem writeAll_append (slots : List Slot) {first : List Nat}
    {items : List Entry} (h : first.length = items.length)
    (second : List Nat) (rest : List Entry) :
    writeAll slots (first ++ second) (items ++ rest) =
      writeAll (writeAll slots first items) second rest := by
  rw [writeAll, List.zip_append h, List.foldl_append]
  rfl

theorem writeAll_append_left {slots : List Slot} {positions : List Nat}
    (h : ∀ position ∈ positions, position < slots.length)
    (after : List Slot) (entries : List Entry) :
    writeAll (slots ++ after) positions entries =
      writeAll slots positions entries ++ after := by
  induction positions generalizing slots entries with
  | nil => rfl
  | cons position positions ih =>
      obtain ⟨hfirst, hrest⟩ := List.forall_mem_cons.mp h
      cases entries with
      | nil => rfl
      | cons entry entries =>
          rw [writeAll_cons, writeAll_cons, List.set_append_left _ _ hfirst]
          refine ih (fun other hother => ?_) entries
          rw [List.length_set]
          exact hrest other hother

theorem writeAll_append_right (before slots : List Slot)
    (positions : List Nat) (entries : List Entry) :
    writeAll (before ++ slots) (positions.map (before.length + ·)) entries =
      before ++ writeAll slots positions entries := by
  induction positions generalizing slots entries with
  | nil => rfl
  | cons position positions ih =>
      cases entries with
      | nil => rfl
      | cons entry entries =>
          rw [List.map_cons, writeAll_cons, writeAll_cons,
            List.set_append_right _ _ (Nat.le_add_right _ _),
            Nat.add_sub_cancel_left]
          exact ih _ entries

namespace Segment

def offsets (capacity count : Nat) : List Nat :=
  (List.range count).map fun index => index * capacity / count

theorem offset_lt {capacity count first second : Nat}
    (hcapacity : count ≤ capacity) (hcount : 0 < count)
    (h : first < second) :
    first * capacity / count < second * capacity / count := by
  calc
    first * capacity / count < first * capacity / count + 1 :=
      Nat.lt_succ_self _
    _ = (first * capacity + count) / count :=
      (Nat.add_div_right _ hcount).symm
    _ ≤ (first * capacity + capacity) / count :=
      Nat.div_le_div_right (Nat.add_le_add_left hcapacity _)
    _ ≤ second * capacity / count := by
      rw [← Nat.succ_mul]
      exact Nat.div_le_div_right (Nat.mul_le_mul_right _ h)

theorem lt_of_mem_offsets {capacity count offset : Nat}
    (hcapacity : count ≤ capacity) (h : offset ∈ offsets capacity count) :
    offset < capacity := by
  obtain ⟨index, hindex, rfl⟩ := List.mem_map.mp h
  have hindex := List.mem_range.mp hindex
  have hcount := Nat.zero_lt_of_lt hindex
  have hlt := offset_lt hcapacity hcount hindex
  rwa [Nat.mul_div_cancel_left _ hcount] at hlt

theorem pairwise_offsets {capacity count : Nat} (h : count ≤ capacity) :
    (offsets capacity count).Pairwise (· < ·) := by
  refine List.pairwise_map.mpr (List.pairwise_lt_range.imp_of_mem ?_)
  intro first second hfirst _ hlt
  exact offset_lt h (Nat.zero_lt_of_lt (List.mem_range.mp hfirst)) hlt

@[simp] theorem length_offsets (capacity count : Nat) :
    (offsets capacity count).length = count := by
  simp [offsets]

theorem append_spaced {capacity count index : Nat} {entries : List Entry}
    (hcapacity : count ≤ capacity) (hcount : 0 < count)
    (h : index + entries.length = count) {before : List Slot}
    (hbefore : before.length = index * capacity / count) :
    before ++ spaced capacity count index entries =
      writeAll (before ++ blank (capacity - before.length))
        ((List.range' index entries.length).map fun other =>
          other * capacity / count) entries := by
  induction entries generalizing index before with
  | nil =>
      obtain rfl : index = count := h
      rw [hbefore, Nat.mul_div_cancel_left _ hcount, Nat.sub_self]
      rfl
  | cons entry rest ih =>
      rw [List.length_cons] at h
      -- What stands before grows by an entry and its gaps to the next offset.
      have hnext : before.length < (index + 1) * capacity / count := by
        rw [hbefore]
        exact offset_lt hcapacity hcount (Nat.lt_succ_self index)
      have hlast : (index + 1) * capacity / count ≤ capacity := by
        refine Nat.div_le_of_le_mul (Nat.mul_le_mul_right _ ?_)
        omega
      rw [spaced, List.length_cons, List.range'_succ, List.map_cons,
        writeAll_cons, ← hbefore]
      obtain ⟨gaps, hgaps⟩ := Nat.exists_eq_add_of_lt hnext
      have hfilled : (before ++
          some entry :: List.replicate gaps none).length =
            (index + 1) * capacity / count := by
        rw [List.length_append, List.length_cons, List.length_replicate, hgaps,
          Nat.add_assoc]
      have hblank : (before ++ blank (capacity - before.length)).set
          before.length (some entry) =
            (before ++ some entry :: List.replicate gaps none) ++
              blank (capacity - (index + 1) * capacity / count) := by
        have hsplit : capacity - before.length =
            gaps + (capacity - (index + 1) * capacity / count) + 1 := by omega
        rw [List.set_append_right _ _ (Nat.le_refl _), Nat.sub_self, hsplit,
          blank, List.replicate_succ, List.replicate_add, List.append_assoc]
        rfl
      have hgap : (index + 1) * capacity / count - before.length - 1 =
          gaps := by
        omega
      rw [hblank, hgap, ← hfilled, ← ih (by omega) hfilled, List.append_assoc]

theorem layOut_eq_writeAll {capacity : Nat} {entries : List Entry}
    (h : entries.length ≤ capacity) :
    layOut capacity entries =
      writeAll (blank capacity) (offsets capacity entries.length) entries := by
  cases entries with
  | nil => rfl
  | cons entry rest =>
      have hstart : ([] : List Slot).length =
          0 * capacity / (entry :: rest).length := by
        rw [Nat.zero_mul, Nat.zero_div, List.length_nil]
      have hspaced := append_spaced h (Nat.succ_pos rest.length)
        (Nat.zero_add _) hstart
      rw [← List.range_eq_range'] at hspaced
      exact hspaced

theorem eq_blank {segment : Segment} (h : segment.entries = []) :
    segment = blank segment.length := by
  refine List.eq_replicate_iff.mpr ⟨rfl, fun slot hslot => ?_⟩
  exact List.filterMap_eq_nil_iff.mp h slot hslot

end Segment

/-! ## Windows -/

/--
The slots to which the entries of a window go, in the order of the entries, when
the segments from `number` on get these shares.
-/
def landings (capacity : Nat) : Nat → List Nat → List Nat
  | _, [] => []
  | number, share :: rest =>
      (Segment.offsets capacity share).map (number * capacity + ·) ++
        landings capacity (number + 1) rest

theorem length_landings (capacity number : Nat) (parts : List Nat) :
    (landings capacity number parts).length = parts.sum := by
  induction parts generalizing number with
  | nil => rfl
  | cons share rest ih => simp [landings, ih]

theorem landings_within {capacity : Nat} (number : Nat) {parts : List Nat}
    (h : ∀ share ∈ parts, share ≤ capacity) :
    ∀ position ∈ landings capacity number parts,
      number * capacity ≤ position ∧
        position < (number + parts.length) * capacity := by
  induction parts generalizing number with
  | nil => simp [landings]
  | cons share rest ih =>
      obtain ⟨hshare, hrest⟩ := List.forall_mem_cons.mp h
      have hend : (number + (share :: rest).length) * capacity =
          number * capacity + capacity + rest.length * capacity := by
        rw [List.length_cons]
        ring
      intro position hposition
      rw [hend]
      rcases List.mem_append.mp hposition with hposition | hposition
      · obtain ⟨offset, hoffset, rfl⟩ := List.mem_map.mp hposition
        have hlt := Segment.lt_of_mem_offsets hshare hoffset
        omega
      · obtain ⟨hlow, hhigh⟩ := ih (number + 1) hrest position hposition
        rw [Nat.add_mul, Nat.succ_mul] at hhigh
        rw [Nat.succ_mul] at hlow
        omega

theorem pairwise_landings {capacity : Nat} (number : Nat) {parts : List Nat}
    (h : ∀ share ∈ parts, share ≤ capacity) :
    (landings capacity number parts).Pairwise (· < ·) := by
  induction parts generalizing number with
  | nil => exact List.Pairwise.nil
  | cons share rest ih =>
      obtain ⟨hshare, hrest⟩ := List.forall_mem_cons.mp h
      refine List.pairwise_append.mpr ⟨List.pairwise_map.mpr ?_,
        ih (number + 1) hrest, ?_⟩
      · exact (Segment.pairwise_offsets hshare).imp (Nat.add_lt_add_left · _)
      · intro first hfirst second hsecond
        obtain ⟨offset, hoffset, rfl⟩ := List.mem_map.mp hfirst
        have hlt := Segment.lt_of_mem_offsets hshare hoffset
        have hle := (landings_within (number + 1) hrest second hsecond).1
        rw [Nat.succ_mul] at hle
        omega

/-- To lay segments out one by one is to write slot by slot. -/
theorem writeAll_landings {capacity number : Nat} {parts : List Nat}
    (h : ∀ share ∈ parts, share ≤ capacity) {entries : List Entry}
    (hsum : entries.length = parts.sum) {before : List Slot}
    (hbefore : before.length = number * capacity) :
    writeAll (before ++ List.replicate (parts.length * capacity) none)
        (landings capacity number parts) entries =
      before ++ ((deal parts entries).map (Segment.layOut capacity)).flatten := by
  induction parts generalizing number entries before with
  | nil => simp [landings, deal]
  | cons share rest ih =>
      obtain ⟨hshare, hrest⟩ := List.forall_mem_cons.mp h
      rw [List.sum_cons] at hsum
      have htaken : (entries.take share).length = share :=
        List.length_take_of_le (by omega)
      have hblanks : List.replicate ((share :: rest).length * capacity)
          (none : Slot) = Segment.blank capacity ++
            List.replicate (rest.length * capacity) none := by
        rw [List.length_cons, Nat.succ_mul, Nat.add_comm, List.replicate_add]
        rfl
      have hfirst : writeAll (before ++ (Segment.blank capacity ++
          List.replicate (rest.length * capacity) none))
            ((Segment.offsets capacity share).map (number * capacity + ·))
            (entries.take share) =
          (before ++ Segment.layOut capacity (entries.take share)) ++
            List.replicate (rest.length * capacity) none := by
        rw [← hbefore, writeAll_append_right, writeAll_append_left,
          Segment.layOut_eq_writeAll (by rwa [htaken]), htaken,
          List.append_assoc]
        intro offset hoffset
        rw [Segment.length_blank]
        exact Segment.lt_of_mem_offsets hshare hoffset
      have hlaidOut : (before ++ Segment.layOut capacity
          (entries.take share)).length = (number + 1) * capacity := by
        rw [List.length_append, Segment.length_layOut (by rwa [htaken]),
          hbefore, Nat.succ_mul]
      calc
        writeAll _ (landings capacity number (share :: rest)) entries =
            writeAll _ (landings capacity number (share :: rest))
              (entries.take share ++ entries.drop share) := by
          rw [List.take_append_drop]
        _ = writeAll ((before ++ Segment.layOut capacity
              (entries.take share)) ++
                List.replicate (rest.length * capacity) none)
              (landings capacity (number + 1) rest) (entries.drop share) := by
          rw [landings, writeAll_append _ (by simp [htaken]), hblanks, hfirst]
        _ = _ := by
          rw [ih hrest (by rw [List.length_drop]; omega) hlaidOut, deal,
            List.map_cons, List.flatten_cons, List.append_assoc]

namespace Storage

variable {storage : Storage} {window : Window} {entries : List Entry}

theorem slots_overwrite
    (hwindow : window.start + window.length ≤ storage.segmentCount)
    {run : List Segment} (hrun : run.length = window.length) :
    (storage.withSegments (overwrite storage.segments window.start run)).slots =
      (storage.segments.toList.take window.start).flatten ++ run.flatten ++
        (storage.segments.toList.drop (window.start + window.length)).flatten := by
  have hcells : window.start + run.length ≤ storage.segments.size := by
    rw [hrun]
    exact hwindow
  rw [slots, withSegments, toList_overwrite _ _ _ hcells, List.flatten_append,
    List.flatten_append, hrun]

theorem Exact.length_flatten_take (h : storage.Exact) {number : Nat}
    (hnumber : number ≤ storage.segmentCount) :
    (storage.segments.toList.take number).flatten.length =
      number * storage.segmentCapacity := by
  have hlengths : ∀ segment ∈ storage.segments.toList.take number,
      segment.length = storage.segmentCapacity := fun segment hsegment =>
    h.length_segment segment
      (Array.mem_toList_iff.mp (List.mem_of_mem_take hsegment))
  rw [length_flatten_of_length hlengths, List.length_take_of_le hnumber]

theorem Exact.withSegments_self (h : storage.Exact) :
    storage.withSegments storage.segments = storage := by
  rw [Storage.withSegments, ← h.counts_eq]

theorem Exact.overwrite_blanks (h : storage.Exact)
    (hempty : storage.occupied window = 0) :
    overwrite storage.segments window.start (storage.blanks window) =
      storage.segments := by
  apply Array.ext_getElem?
  intro number
  rw [getElem?_overwrite, length_blanks]
  split
  · rename_i hrun
    split
    · rename_i hnumber
      obtain ⟨segment, hsegment⟩ := exists_segment hnumber
      have hnone : segment.entries = [] := by
        have hle := storage.filled_le_occupied hrun.1 hrun.2
        rw [filled_eq hsegment, hempty] at hle
        exact List.length_eq_zero_iff.mp (Nat.le_zero.mp hle)
      have hlength := h.length_segment segment (Array.mem_of_getElem? hsegment)
      rw [hsegment, blanks, List.getElem?_replicate, if_pos (by omega),
        Segment.eq_blank hnone, hlength]
    · rename_i hnumber
      exact (Array.getElem?_eq_none (Nat.not_lt.mp hnumber)).symm
  · rfl

theorem Exact.count_eq_filled (h : storage.Exact) {number : Nat}
    (hnumber : number < storage.segmentCount) :
    storage.count number = .ok (storage.filled number) := by
  obtain ⟨segment, hsegment⟩ := exists_segment hnumber
  rw [h.tallied.count_eq hsegment, filled_eq hsegment]

theorem partsOf_eq_map (storage : Storage) (window : Window) :
    storage.partsOf window = (storage.segmentsOf window).map Segment.entries := by
  rw [segmentsOf, Array.toList_extract, List.extract_eq_take_drop,
    Nat.add_sub_cancel_left, partsOf, parts, List.map_take, List.map_drop]

/-! ## Filling -/

def landingsOf (storage : Storage) (window : Window) (count : Nat) : List Nat :=
  landings storage.segmentCapacity window.start (shares count window.length)

/--
A window of `before` has been filled with entries, slot by slot from left to
right, and `leaders` tells the first key that went to each of its segments.
-/
structure Fills (window : Window) (entries : List Entry)
    (leaders : List Leader) (before after : Storage) : Prop where
  slots_eq : after.slots = writeAll before.slots
    (before.landingsOf window entries.length) entries
  length_landings :
    (before.landingsOf window entries.length).length = entries.length
  increasing : (before.landingsOf window entries.length).Pairwise (· < ·)
  within : ∀ position ∈ before.landingsOf window entries.length,
    window.start * before.segmentCapacity ≤ position ∧
      position < (window.start + window.length) * before.segmentCapacity
  entriesIn_eq : after.entriesIn (window.start * before.segmentCapacity)
    (window.length * before.segmentCapacity) = entries
  count_eq : ∀ offset < window.length,
    after.count (window.start + offset) = .ok
      (entries.length / window.length +
        if offset < entries.length % window.length then 1 else 0)
  leaders_eq : leaders = ((after.segmentsOf window).zipIdx window.start).filterMap
    fun (segment, number) => segment.minimum?.map fun key => (key, number)

section Window

variable (h : storage.Exact) (hlength : 0 < window.length)
  (hwindow : window.start + window.length ≤ storage.segmentCount)
include h hwindow

theorem Exact.slots_of_empty (hempty : storage.occupied window = 0) :
    storage.slots =
      (storage.segments.toList.take window.start).flatten ++
        List.replicate (window.length * storage.segmentCapacity) none ++
        (storage.segments.toList.drop (window.start + window.length)).flatten := by
  have hblanks : (storage.blanks window).flatten =
      List.replicate (window.length * storage.segmentCapacity) none :=
    List.flatten_replicate_replicate
  rw [← hblanks, ← slots_overwrite hwindow (length_blanks _ _),
    h.overwrite_blanks hempty, h.withSegments_self]

include hlength

theorem Exact.slots_dealOut (hempty : storage.occupied window = 0)
    (hfit : entries.length ≤ window.length * storage.segmentCapacity) :
    (storage.dealOut window entries).slots = writeAll storage.slots
      (storage.landingsOf window entries.length) entries := by
  have hparts : ∀ share ∈ shares entries.length window.length,
      share ≤ storage.segmentCapacity := fun _ => le_of_mem_shares hfit
  have hbefore := h.length_flatten_take (Nat.le_of_add_right_le hwindow)
  have hwrite := writeAll_landings hparts (sum_shares hlength).symm hbefore
  rw [length_shares] at hwrite
  -- No entry goes behind the window, so the slots there stay out of it.
  rw [dealOut, slots_overwrite hwindow (length_dealt _ _ _),
    h.slots_of_empty hwindow hempty, landingsOf, writeAll_append_left, hwrite]
  · rfl
  · intro position hposition
    have hlt := (landings_within window.start hparts position hposition).2
    rw [length_shares, Nat.add_mul] at hlt
    rwa [List.length_append, hbefore, List.length_replicate]

theorem Exact.entriesIn_dealOut
    (hfit : entries.length ≤ window.length * storage.segmentCapacity) :
    (storage.dealOut window entries).entriesIn
        (window.start * storage.segmentCapacity)
        (window.length * storage.segmentCapacity) = entries := by
  have hexact := h.exact_dealOut hlength hfit
  have hbefore := h.length_flatten_take (Nat.le_of_add_right_le hwindow)
  have hdealt : (storage.dealt window entries).flatten.length =
      window.length * storage.segmentCapacity := by
    rw [length_flatten_of_length fun _ => length_of_mem_dealt hlength hfit,
      length_dealt]
  rw [hexact.entriesIn_eq, dealOut, slots_overwrite hwindow (length_dealt _ _ _),
    List.append_assoc, List.drop_left' hbefore, List.take_left' hdealt,
    List.filterMap_flatten]
  change ((storage.dealt window entries).map Segment.entries).flatten = entries
  rw [map_entries_dealt, flatten_deal_shares hlength]

theorem Exact.fills_dealOut (hempty : storage.occupied window = 0)
    (hfit : entries.length ≤ window.length * storage.segmentCapacity) :
    Fills window entries
      (firstKeys window.start
        (deal (shares entries.length window.length) entries))
      storage (storage.dealOut window entries) := by
  have hexact := h.exact_dealOut hlength hfit
  have hparts : ∀ share ∈ shares entries.length window.length,
      share ≤ storage.segmentCapacity := fun _ => le_of_mem_shares hfit
  have hwithin := landings_within window.start hparts
  rw [length_shares] at hwithin
  exact {
    slots_eq := h.slots_dealOut hlength hwindow hempty hfit
    length_landings := by rw [landingsOf, length_landings, sum_shares hlength]
    increasing := pairwise_landings window.start hparts
    within := hwithin
    entriesIn_eq := h.entriesIn_dealOut hlength hwindow hfit
    count_eq := by
      intro offset hoffset
      have hnumber : window.start + offset <
          (storage.dealOut window entries).segmentCount := by
        rw [segmentCount_dealOut]
        omega
      rw [hexact.count_eq_filled hnumber,
        filled_dealOut hlength hwindow entries hoffset]
    leaders_eq := by
      rw [← partsOf_dealOut_self hwindow entries, partsOf_eq_map,
        firstKeys_entries] }

theorem Exact.drain_dealOut (hempty : storage.occupied window = 0)
    (hfit : entries.length ≤ window.length * storage.segmentCapacity) :
    (storage.dealOut window entries).drain window = (.ok entries, storage) := by
  have hcells : window.start + window.length ≤
      (storage.dealOut window entries).segmentCount := by
    rw [segmentCount_dealOut]
    exact hwindow
  have hsegments : overwrite (storage.dealOut window entries).segments
      window.start ((storage.dealOut window entries).blanks window) =
        storage.segments := by
    refine (overwrite_overwrite storage.segments window.start ?_).trans
      (h.overwrite_blanks hempty)
    rw [length_dealt, length_blanks]
  rw [(h.exact_dealOut hlength hfit).drain_eq hlength hcells,
    partsOf_dealOut_self hwindow, flatten_deal_shares hlength, hsegments,
    dealOut, withSegments_withSegments, h.withSegments_self]

end Window

/--
An empty window takes in every list of entries for which it has slots, and
draining it gives the list back and restores the storage.
-/
theorem drain_undoes_fill (h : storage.Evolved) (hlength : 0 < window.length)
    (hwindow : window.start + window.length ≤ storage.segmentCount)
    (hempty : storage.occupiedSlots window = 0)
    (hfit : entries.length ≤ window.length * storage.segmentCapacity) :
    ∃ leaders filled,
      storage.fill window entries = (.ok leaders, filled) ∧
      Fills window entries leaders storage filled ∧
      filled.drain window = (.ok entries, storage) := by
  have hexact := h.exact
  rw [occupiedSlots_eq] at hempty
  exact ⟨_, _, hexact.fill_eq hlength hwindow hempty hfit,
    hexact.fills_dealOut hlength hwindow hempty hfit,
    hexact.drain_dealOut hlength hwindow hempty hfit⟩

theorem drain_undoes_fill_unaligned :
    ∃ leaders filled,
      ((blank 16).performAll [.insert 0 ⟨5, 50⟩]).fill ⟨1, 3⟩
          [⟨9, 90⟩, ⟨5, 51⟩, ⟨7, 70⟩, ⟨1, 10⟩] = (.ok leaders, filled) ∧
      Fills ⟨1, 3⟩ [⟨9, 90⟩, ⟨5, 51⟩, ⟨7, 70⟩, ⟨1, 10⟩] leaders
        ((blank 16).performAll [.insert 0 ⟨5, 50⟩]) filled ∧
      filled.drain ⟨1, 3⟩ =
        (.ok [⟨9, 90⟩, ⟨5, 51⟩, ⟨7, 70⟩, ⟨1, 10⟩],
          (blank 16).performAll [.insert 0 ⟨5, 50⟩]) :=
  drain_undoes_fill ⟨4, [.insert 0 ⟨5, 50⟩], by decide, rfl⟩ (by decide)
    (by decide +kernel) (by decide +kernel) (by decide +kernel)

end Storage

end PackedMemory
