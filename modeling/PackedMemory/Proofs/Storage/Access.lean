import PackedMemory.Proofs.Storage.Row

/-!
# Accesses to slots

In an exact storage the steps access only slots and counters that are there,
whatever segment, offset or window is asked for.
-/

namespace PackedMemory

open Checked

namespace Segment

variable {segment : Segment} {key : Key}

def copyWithinChecked (segment : Segment) (start stop target : Nat) :
    Checked Segment := do
  let run ← readRun segment.toArray start stop
  let copied ← writeRun segment.toArray target run
  return copied.toList

def makeWayChecked (segment : Segment) (gap : Nat) :
    Option Nat → Checked (Nat × Segment)
  | none => do
      let moved ← segment.copyWithinChecked (gap + 1) segment.length gap
      return (segment.length - 1, moved)
  | some larger =>
      if gap < larger then do
        let moved ← segment.copyWithinChecked (gap + 1) larger gap
        return (larger - 1, moved)
      else do
        let moved ← segment.copyWithinChecked larger gap (larger + 1)
        return (larger, moved)

def insertChecked? (entry : Entry) (segment : Segment) :
    Checked (Option (Bool × Segment)) := do
  let seen := scan entry.key 0 ⟨none, none⟩ segment
  match seen.gap with
  | none => return none
  | some gap =>
      let (place, moved) ← segment.makeWayChecked gap seen.larger
      let filled ← writeCell moved.toArray place (some entry)
      let before ← readRun filled 0 place
      return some (before.all Option.isNone, filled.toList)

theorem copyWithinChecked_eq {start stop target : Nat} (hstart : start ≤ stop)
    (hstop : stop ≤ segment.length)
    (htarget : target + (stop - start) ≤ segment.length) :
    segment.copyWithinChecked start stop target =
      .ok (segment.copyWithin start stop target) := by
  have hrun : (segment.toArray.extract start stop).toList =
      (segment.take stop).drop start := by
    simp [List.extract_eq_drop_take']
  have hlength : ((segment.take stop).drop start).length = stop - start := by
    rw [List.length_drop, List.length_take_of_le hstop]
  rw [copyWithinChecked, readRun_eq hstart (by simpa using hstop), ok_bind,
    hrun, writeRun_eq (by simpa [hlength] using htarget), ok_bind, pure_eq_ok,
    toList_overwrite _ _ _ (by simpa [hlength] using htarget)]
  rfl

theorem makeWayChecked_eq {gap : Nat} {larger : Option Nat}
    (hgap : gap < segment.length)
    (hlarger : ∀ offset, larger = some offset → offset < segment.length) :
    segment.makeWayChecked gap larger = .ok (segment.makeWay gap larger) := by
  cases larger with
  | none =>
      rw [makeWayChecked, copyWithinChecked_eq hgap (Nat.le_refl _) (by omega)]
      rfl
  | some offset =>
      have hoffset := hlarger offset rfl
      rw [makeWayChecked, makeWay]
      split
      · rw [copyWithinChecked_eq (by omega) (by omega) (by omega)]
        rfl
      · rw [copyWithinChecked_eq (by omega) (by omega) (by omega)]
        rfl

theorem insertChecked?_eq (entry : Entry) (segment : Segment) :
    segment.insertChecked? entry = .ok (segment.insert? entry) := by
  rw [insertChecked?, insert?, scan_start]
  cases hgap : segment.findIdx? Option.isNone with
  | none => rfl
  | some gap =>
      have hgap := (List.findIdx?_eq_some_iff_findIdx_eq.mp hgap).1
      have hlarger (offset : Nat)
          (h : segment.findIdx? (fun slot => !precedes entry.key slot) =
            some offset) : offset < segment.length :=
        (List.findIdx?_eq_some_iff_findIdx_eq.mp h).1
      obtain ⟨hplace, hlength⟩ := makeWay_bounds hgap hlarger
      simp only [makeWayChecked_eq hgap hlarger, ok_bind, pure_eq_ok]
      rw [writeCell_eq (by simpa [hlength] using hplace), ok_bind,
        readRun_eq (Nat.zero_le _) (by simpa [hlength] using hplace.le)]
      simp

end Segment

namespace Storage

variable {storage : Storage} {number : Nat} {window : Window}

def insertChecked (storage : Storage) (number : Nat) (entry : Entry) :
    Checked (Except Fault Bool × Storage) := do
  if number < storage.segmentCount then
    let count ← storage.counts.leafChecked number
    if count == storage.segmentCapacity then
      return (.error (.segmentFull number), storage)
    else
      let start := number * storage.segmentCapacity
      let slots ← readRun storage.row start
        ((number + 1) * storage.segmentCapacity)
      match ← Segment.insertChecked? entry slots with
      | none => return (.error (.segmentFull number), storage)
      | some (leads, filled) =>
          let row ← writeRun storage.row start filled
          let counts ← storage.counts.adjustChecked (· + 1) number
          return (.ok leads, storage.withRow row counts)
  else
    return (.error (storage.outOfRange number), storage)

def removeAtChecked (storage : Storage) (number offset : Nat) :
    Checked (Except Fault Slot × Storage) := do
  if number < storage.segmentCount then
    if storage.segmentCapacity ≤ offset then
      return (.error (storage.outOfRange number), storage)
    else
      let position := number * storage.segmentCapacity + offset
      match ← readCell storage.row position with
      | none => return (.ok none, storage)
      | some entry =>
          let row ← writeCell storage.row position none
          let counts ← storage.counts.adjustChecked (· - 1) number
          return (.ok (some entry), storage.withRow row counts)
  else
    return (.error (storage.outOfRange number), storage)

def drainChecked (storage : Storage) (window : Window) :
    Checked (Except Fault (List Entry) × Storage) := do
  match storage.checkWindow window with
  | .error fault => return (.error fault, storage)
  | .ok () =>
      let _ ← storage.counts.elementsChecked window.start window.length
      let start := window.start * storage.segmentCapacity
      let stop := (window.start + window.length) * storage.segmentCapacity
      let slots ← readRun storage.row start stop
      let row ← writeRun storage.row start (List.replicate slots.length none)
      let counts ← storage.counts.recordChecked window.start
        (List.replicate window.length 0)
      return (.ok (slots.filterMap id), storage.withRow row counts)

def writeEntries (row : Array Slot) :
    List Nat → List Entry → Checked (Array Slot)
  | position :: positions, entry :: entries => do
      let written ← writeCell row position (some entry)
      writeEntries written positions entries
  | _, _ => return row

def fillChecked (storage : Storage) (window : Window) (entries : List Entry) :
    Checked (Except Fault (List Leader) × Storage) := do
  match storage.checkWindow window with
  | .error fault => return (.error fault, storage)
  | .ok () =>
      if window.length * storage.segmentCapacity < entries.length then
        return (.error (.corrupted (.overfilling entries.length window.length
          storage.segmentCapacity)), storage)
      else
        let held ← storage.counts.elementsChecked window.start window.length
        ensure (held == 0)
        let row ← writeEntries storage.row
          (storage.landingsOf window entries.length) entries
        let parts := shares entries.length window.length
        let counts ← storage.counts.recordChecked window.start parts
        return (.ok (firstKeys window.start (deal parts entries)),
          storage.withRow row counts)

section Changing

variable (h : storage.Exact)
include h

theorem Exact.adjustChecked_eq (hnumber : number < storage.segmentCount)
    (change : Nat → Nat) :
    storage.counts.adjustChecked change number =
      .ok (storage.counts.adjust change number) := by
  obtain ⟨depth, hsize, hcount, -⟩ := h.size_held
  rw [h.counts_eq]
  exact CountTree.adjustChecked_ofCounts hsize (by omega) change

theorem Exact.recordChecked_eq {start : Nat} {counts : List Nat}
    (hcounts : start + counts.length ≤ storage.segmentCount) :
    storage.counts.recordChecked start counts =
      .ok (storage.counts.record start counts) := by
  obtain ⟨depth, hsize, hcount, -⟩ := h.size_held
  rw [h.counts_eq]
  exact CountTree.recordChecked_ofCounts hsize (by omega)

theorem Exact.insertChecked_eq (number : Nat) (entry : Entry) :
    storage.insertChecked number entry = .ok (storage.insert number entry) := by
  rw [insertChecked, insert]
  cases hsegment : storage.segments[number]? with
  | none =>
      rw [if_neg (not_lt_segmentCount hsegment)]
      rfl
  | some segment =>
      have hnumber := lt_segmentCount hsegment
      have hlength := h.length_segment segment (Array.mem_of_getElem? hsegment)
      rw [if_pos hnumber, h.leafChecked_eq hnumber, ok_bind,
        h.isFull_eq hsegment, h.leaf_eq hsegment]
      cases hfull : segment.entries.length == storage.segmentCapacity with
      | true => rfl
      | false =>
          rw [beq_eq_false_iff_ne] at hfull
          have hle := segment.length_entries_le
          have hnone : none ∈ segment :=
            Segment.none_mem_of_length_lt (by omega)
          have hfilled : ∀ other ∈ [segment.insert entry],
              other.length = storage.segmentCapacity := by
            simp [Segment.length_insert hnone, hlength]
          obtain ⟨row, hrow, hnew⟩ := h.writeRun_row hfilled
            (Nat.succ_le_of_lt hnumber) (storage.counts.increment number)
          rw [List.flatten_singleton] at hrow
          simp only [Bool.false_eq_true, if_false, h.readRun_segment hsegment,
            Segment.insertChecked?_eq, Segment.insert?_eq_some hnone, hrow,
            h.adjustChecked_eq hnumber, ok_bind, pure_eq_ok]
          exact congrArg (fun new => Except.ok (Except.ok _, new)) hnew

theorem Exact.removeAtChecked_eq (number offset : Nat) :
    storage.removeAtChecked number offset =
      .ok (storage.removeAt number offset) := by
  rw [removeAtChecked, removeAt]
  cases hsegment : storage.segments[number]? with
  | none =>
      rw [if_neg (not_lt_segmentCount hsegment)]
      rfl
  | some segment =>
      have hnumber := lt_segmentCount hsegment
      have hlength := h.length_segment segment (Array.mem_of_getElem? hsegment)
      rw [if_pos hnumber]
      by_cases hoffset : storage.segmentCapacity ≤ offset
      · simp only [if_pos hoffset]
        rfl
      · have hoffset := Nat.not_le.mp hoffset
        have hslot := List.getElem?_eq_getElem (hlength ▸ hoffset)
        have hcell := (h.getElem?_row hsegment hoffset).trans hslot
        simp only [if_neg (Nat.not_le.mpr hoffset), List.getD_eq_getElem?_getD,
          hslot, Option.getD_some, readCell_eq hcell, ok_bind]
        cases segment[offset] with
        | none => rfl
        | some entry =>
            obtain ⟨row, hrow, hnew⟩ := h.clearCell_row hsegment hoffset
              (storage.counts.decrement number)
            simp only [hrow, h.adjustChecked_eq hnumber, ok_bind, pure_eq_ok]
            exact congrArg (fun new => Except.ok (Except.ok _, new)) hnew

theorem Exact.drainChecked_eq (window : Window) :
    storage.drainChecked window = .ok (storage.drain window) := by
  by_cases hwindow : 0 < window.length ∧
      window.start + window.length ≤ storage.segmentCount
  · obtain ⟨hlength, hcells⟩ := hwindow
    have hslots : (storage.segmentsOf window).flatten.length =
        window.length * storage.segmentCapacity := by
      rw [length_flatten_of_length fun segment hsegment =>
          h.length_segment segment (mem_of_mem_segmentsOf hsegment),
        length_segmentsOf hcells]
    have hblanks : (storage.blanks window).flatten =
        List.replicate (window.length * storage.segmentCapacity) none :=
      List.flatten_replicate_replicate
    have hentries : (storage.segmentsOf window).flatten.filterMap id =
        (storage.segmentsOf window).flatMap Segment.entries := by
      rw [List.filterMap_flatten, List.flatMap_def]
      rfl
    have hcounts : window.start + (List.replicate window.length 0).length ≤
        storage.segmentCount := by
      rwa [List.length_replicate]
    obtain ⟨row, hrow, hnew⟩ := h.writeRun_row
      (storage.length_of_mem_blanks window) (by rwa [length_blanks])
      (storage.counts.record window.start (List.replicate window.length 0))
    rw [hblanks] at hrow
    rw [drainChecked, drain, checkWindow_eq hlength hcells]
    simp only [h.elementsChecked_eq hcells, h.readRun_row hcells, hslots,
      hentries, hrow, h.recordChecked_eq hcounts, ok_bind, pure_eq_ok, hnew]
    rfl
  · rw [drainChecked, drain, checkWindow_eq_error hwindow]
    rfl

omit h in
theorem writeEntries_eq {row : Array Slot} {positions : List Nat}
    (hpositions : ∀ position ∈ positions, position < row.size)
    (entries : List Entry) :
    ∃ written, writeEntries row positions entries = .ok written ∧
      written.toList = writeAll row.toList positions entries := by
  induction positions generalizing row entries with
  | nil => exact ⟨row, rfl, rfl⟩
  | cons position positions ih =>
      obtain ⟨hposition, hrest⟩ := List.forall_mem_cons.mp hpositions
      cases entries with
      | nil => exact ⟨row, rfl, rfl⟩
      | cons entry entries =>
          have hrest : ∀ position' ∈ positions,
              position' < (row.setIfInBounds position (some entry)).size := by
            simpa using hrest
          obtain ⟨written, hwritten, hslots⟩ := ih hrest entries
          refine ⟨written, ?_, by simpa [writeAll_cons] using hslots⟩
          rw [writeEntries, writeCell_eq hposition, ok_bind, hwritten]

theorem Exact.writeEntries_row {entries : List Entry}
    (hlength : 0 < window.length)
    (hcells : window.start + window.length ≤ storage.segmentCount)
    (hempty : storage.occupied window = 0)
    (hfits : entries.length ≤ window.length * storage.segmentCapacity)
    (counts : CountTree) :
    ∃ row, writeEntries storage.row (storage.landingsOf window entries.length)
        entries = .ok row ∧
      storage.withRow row counts =
        { storage with
          segments := overwrite storage.segments window.start
            (storage.dealt window entries)
          counts } := by
  have hparts : ∀ share ∈ shares entries.length window.length,
      share ≤ storage.segmentCapacity := fun _ => le_of_mem_shares hfits
  have hwithin := landings_within window.start hparts
  rw [length_shares] at hwithin
  have hpositions : ∀ position ∈ storage.landingsOf window entries.length,
      position < storage.row.size := by
    intro position hposition
    rw [h.size_row]
    exact (hwithin position hposition).2.trans_le
      (Nat.mul_le_mul_right _ hcells)
  obtain ⟨row, hrow, hslots⟩ := writeEntries_eq hpositions entries
  have hdealt := h.slots_dealOut hlength hcells hempty hfits
  exact ⟨row, hrow, withRow_eq (hslots.trans hdealt.symm)
    (size_overwrite _ _ _) (h.exact_dealOut hlength hfits).length_segment
    counts⟩

theorem Exact.fillChecked_eq {entries : List Entry}
    (hempty : storage.occupied window = 0) :
    storage.fillChecked window entries = .ok (storage.fill window entries) := by
  by_cases hwindow : 0 < window.length ∧
      window.start + window.length ≤ storage.segmentCount
  · obtain ⟨hlength, hcells⟩ := hwindow
    rw [fillChecked, fill, checkWindow_eq hlength hcells]
    by_cases hfit : window.length * storage.segmentCapacity < entries.length
    · simp only [if_pos hfit]
      rfl
    · have hfits := Nat.le_of_not_lt hfit
      have helements := h.elements_eq hcells
      rw [elements, if_pos hcells, hempty, Except.ok.injEq] at helements
      have hcounts : window.start +
          (shares entries.length window.length).length ≤
            storage.segmentCount := by
        rwa [length_shares]
      obtain ⟨row, hrow, hnew⟩ :=
        h.writeEntries_row hlength hcells hempty hfits
          (storage.counts.record window.start
            (shares entries.length window.length))
      simp only [if_neg hfit, h.elementsChecked_eq hcells, helements, hrow,
        h.recordChecked_eq hcounts, ok_bind, pure_eq_ok, hnew]
      rfl
  · rw [fillChecked, fill, checkWindow_eq_error hwindow]
    rfl

end Changing

end Storage

end PackedMemory
