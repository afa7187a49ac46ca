import PackedMemory.Proofs.Counters.Access
import PackedMemory.Proofs.Storage.Filling

/-!
# The row of slots

The slots of all segments stand in one row, segment after segment.  What is read
of them is read from that row, and what is written is written there, so that the
segments have to be cut out of it again.
-/

namespace PackedMemory

open Checked

namespace Storage

variable {storage : Storage} {number : Nat} {window : Window}

def row (storage : Storage) : Array Slot := storage.slots.toArray

def cut (width : Nat) : Nat → List Slot → List Segment
  | 0, _ => []
  | count + 1, slots =>
      slots.take width :: cut width count (slots.drop width)

def withRow (storage : Storage) (row : Array Slot) (counts : CountTree) :
    Storage :=
  { storage with
    segments :=
      (cut storage.segmentCapacity storage.segmentCount row.toList).toArray
    counts }

theorem cut_flatten {width : Nat} {segments : List Segment}
    (h : ∀ segment ∈ segments, segment.length = width) :
    cut width segments.length segments.flatten = segments := by
  induction segments with
  | nil => rfl
  | cons segment segments ih =>
      obtain ⟨hsegment, hsegments⟩ := List.forall_mem_cons.mp h
      rw [List.length_cons, cut, List.flatten_cons, List.take_left' hsegment,
        List.drop_left' hsegment, ih hsegments]

theorem withRow_eq {row : Array Slot} {segments : Array Segment}
    (hrow : row.toList = segments.toList.flatten)
    (hsize : segments.size = storage.segmentCount)
    (hlength : ∀ segment ∈ segments,
      segment.length = storage.segmentCapacity) (counts : CountTree) :
    storage.withRow row counts = { storage with segments, counts } := by
  rw [withRow, hrow, ← hsize, ← Array.length_toList,
    cut_flatten fun segment hsegment =>
      hlength segment (Array.mem_toList_iff.mp hsegment)]

theorem Exact.forall_mem_toList (h : storage.Exact) :
    ∀ segment ∈ storage.segments.toList,
      segment.length = storage.segmentCapacity := fun segment hsegment =>
  h.length_segment segment (Array.mem_toList_iff.mp hsegment)

theorem Exact.size_row (h : storage.Exact) :
    storage.row.size = storage.segmentCount * storage.segmentCapacity := by
  rw [row, List.size_toArray, h.length_slots, capacity]

theorem not_lt_segmentCount (h : storage.segments[number]? = none) :
    ¬number < storage.segmentCount :=
  Nat.not_lt.mpr (Array.getElem?_eq_none_iff.mp h)

theorem mem_of_mem_segmentsOf {segment : Segment}
    (h : segment ∈ storage.segmentsOf window) : segment ∈ storage.segments := by
  rw [segmentsOf, Array.toList_extract, List.extract_eq_take_drop] at h
  exact Array.mem_toList_iff.mp
    (List.mem_of_mem_drop (List.mem_of_mem_take h))

theorem length_segmentsOf
    (h : window.start + window.length ≤ storage.segmentCount) :
    (storage.segmentsOf window).length = window.length := by
  rw [segmentsOf, Array.length_toList, Array.size_extract]
  change min _ storage.segmentCount - _ = _
  omega

theorem Exact.readRun_row (h : storage.Exact)
    (hwindow : window.start + window.length ≤ storage.segmentCount) :
    readRun storage.row (window.start * storage.segmentCapacity)
        ((window.start + window.length) * storage.segmentCapacity) =
      .ok (storage.segmentsOf window).flatten := by
  have hslots := h.forall_mem_toList
  have hrest : ∀ segment ∈ storage.segments.toList.drop window.start,
      segment.length = storage.segmentCapacity := fun segment hsegment =>
    hslots segment (List.mem_of_mem_drop hsegment)
  have hstart := Nat.le_add_right window.start window.length
  have hstop := Nat.mul_le_mul_right storage.segmentCapacity hwindow
  rw [← h.size_row] at hstop
  rw [readRun_eq (Nat.mul_le_mul_right _ hstart) hstop, segmentsOf,
    Array.toList_extract, Array.toList_extract, List.extract_eq_take_drop,
    List.extract_eq_take_drop, ← Nat.sub_mul]
  change Except.ok ((storage.slots.drop _).take _) = _
  rw [slots, drop_flatten_of_length hslots, take_flatten_of_length hrest]

theorem Exact.readRun_segment (h : storage.Exact) {segment : Segment}
    (hsegment : storage.segments[number]? = some segment) :
    readRun storage.row (number * storage.segmentCapacity)
        ((number + 1) * storage.segmentCapacity) = .ok segment := by
  obtain ⟨hnumber, hget⟩ := Array.getElem?_eq_some_iff.mp hsegment
  have hwindow : (⟨number, 1⟩ : Window).start + (⟨number, 1⟩ : Window).length ≤
      storage.segmentCount := hnumber
  have hrun := h.readRun_row hwindow
  have hsegments : storage.segmentsOf ⟨number, 1⟩ = [segment] := by
    rw [segmentsOf, Array.toList_extract, List.extract_eq_take_drop,
      Nat.add_sub_cancel_left,
      List.drop_eq_getElem_cons (by simpa using hnumber)]
    simp [hget]
  rwa [hsegments, List.flatten_singleton] at hrun

theorem Exact.writeRun_row (h : storage.Exact) {start : Nat}
    {run : List Segment}
    (hrun : ∀ segment ∈ run, segment.length = storage.segmentCapacity)
    (hcells : start + run.length ≤ storage.segmentCount) (counts : CountTree) :
    ∃ row, writeRun storage.row (start * storage.segmentCapacity) run.flatten =
        .ok row ∧
      storage.withRow row counts =
        { storage with
          segments := overwrite storage.segments start run
          counts } := by
  have hslots := h.forall_mem_toList
  have hlength := length_flatten_of_length hrun
  have hstop : start * storage.segmentCapacity + run.flatten.length =
      (start + run.length) * storage.segmentCapacity := by
    rw [hlength, Nat.add_mul]
  have hfits : start * storage.segmentCapacity + run.flatten.length ≤
      storage.row.size := by
    rw [hstop, h.size_row]
    exact Nat.mul_le_mul_right _ hcells
  refine ⟨_, writeRun_eq hfits, withRow_eq ?_ (size_overwrite _ _ _) ?_ counts⟩
  · rw [toList_overwrite _ _ _ hfits, toList_overwrite _ _ _ hcells, hstop,
      List.flatten_append, List.flatten_append]
    change storage.slots.take _ ++ _ ++ storage.slots.drop _ = _
    rw [slots, take_flatten_of_length hslots, drop_flatten_of_length hslots]
  · exact (h.exact_overwrite start hrun).length_segment

theorem Exact.getElem?_row (h : storage.Exact) {segment : Segment} {offset : Nat}
    (hsegment : storage.segments[number]? = some segment)
    (hoffset : offset < storage.segmentCapacity) :
    storage.row[number * storage.segmentCapacity + offset]? =
      segment[offset]? := by
  have hwidth : 0 < storage.segmentCapacity := by omega
  rw [row, List.getElem?_toArray, slots,
    getElem?_flatten_of_length hwidth h.forall_mem_toList,
    Nat.mul_comm, Nat.mul_add_div hwidth, Nat.div_eq_of_lt hoffset,
    Nat.mul_add_mod, Nat.mod_eq_of_lt hoffset, Nat.add_zero,
    Array.getElem?_toList, hsegment]
  rfl

theorem Exact.clearCell_row (h : storage.Exact) {segment : Segment}
    {offset : Nat} (hsegment : storage.segments[number]? = some segment)
    (hoffset : offset < storage.segmentCapacity) (counts : CountTree) :
    ∃ row, writeCell storage.row (number * storage.segmentCapacity + offset)
        none = .ok row ∧
      storage.withRow row counts =
        { storage with
          segments :=
            storage.segments.setIfInBounds number (segment.set offset none)
          counts } := by
  have hlength := h.length_segment segment (Array.mem_of_getElem? hsegment)
  have hcell := h.getElem?_row hsegment hoffset
  rw [List.getElem?_eq_getElem (hlength ▸ hoffset)] at hcell
  refine ⟨_, writeCell_eq (Array.getElem?_eq_some_iff.mp hcell).1 none,
    withRow_eq ?_ Array.size_setIfInBounds
      (h.exact_removeAt hsegment offset).length_segment counts⟩
  rw [Array.toList_setIfInBounds, Array.toList_setIfInBounds,
    flatten_set_of_length h.forall_mem_toList (by simpa using hsegment) hoffset]
  rfl

/-! ## Reading -/

def segmentChecked (storage : Storage) (number : Nat) :
    CheckedAnswer Segment := do
  if number < storage.segmentCount then
    readRun storage.row (number * storage.segmentCapacity)
      ((number + 1) * storage.segmentCapacity)
  else
    throw (storage.outOfRange number)

def countChecked (storage : Storage) (number : Nat) : CheckedAnswer Nat := do
  if number < storage.segmentCount then
    storage.counts.leafChecked number
  else
    throw (storage.outOfRange number)

def isFullChecked (storage : Storage) (number : Nat) : Checked Bool := do
  if number < storage.segmentCount then
    let count ← storage.counts.leafChecked number
    return count == storage.segmentCapacity
  else
    return false

def minimumChecked (storage : Storage) (number : Nat) : CheckedAnswer Key := do
  let slots ← storage.segmentChecked number
  let count ← storage.counts.leafChecked number
  if count = 0 then
    throw (.emptySegment number)
  else
    match slots.minimum? with
    | some key => return key
    | none => throw (.corrupted (.missingMinimum number count))

def position?Checked (storage : Storage) (number : Nat) (key : Key) :
    CheckedAnswer (Option Nat) := do
  let slots ← storage.segmentChecked number
  return slots.position? key

def leader?Checked (storage : Storage) (number : Nat) :
    CheckedAnswer (Option Key) := do
  let count ← storage.countChecked number
  if count = 0 then
    return none
  else
    let key ← storage.minimumChecked number
    return some key

def leadersChecked (storage : Storage) : List Nat → CheckedAnswer (List Leader)
  | [] => return []
  | number :: rest => do
      let leader ← storage.leader?Checked number
      let others ← storage.leadersChecked rest
      match leader with
      | some key => return (key, number) :: others
      | none => return others

section Reading

variable (h : storage.Exact)
include h

theorem Exact.leafChecked_eq (hnumber : number < storage.segmentCount) :
    storage.counts.leafChecked number = .ok (storage.counts.leaf number) :=
  readCell_getD (by rwa [h.size_leaves]) 0

theorem Exact.segmentChecked_eq (number : Nat) :
    (storage.segmentChecked number).run = .ok (storage.segment number) := by
  rw [segmentChecked, segment]
  cases hsegment : storage.segments[number]? with
  | none =>
      rw [if_neg (not_lt_segmentCount hsegment)]
      rfl
  | some segment =>
      rw [if_pos (lt_segmentCount hsegment), h.readRun_segment hsegment]
      rfl

theorem Exact.countChecked_eq (number : Nat) :
    (storage.countChecked number).run = .ok (storage.count number) := by
  rw [countChecked, count]
  split
  · rw [h.leafChecked_eq ‹_›]
    rfl
  · rfl

theorem Exact.isFullChecked_eq (number : Nat) :
    storage.isFullChecked number = .ok (storage.isFull number) := by
  rw [isFullChecked, isFull]
  by_cases hnumber : number < storage.segmentCount
  · rw [if_pos hnumber, h.leafChecked_eq hnumber, decide_eq_true hnumber,
      Bool.true_and]
    rfl
  · rw [if_neg hnumber, decide_eq_false hnumber, Bool.false_and]
    rfl

theorem Exact.minimumChecked_eq (number : Nat) :
    (storage.minimumChecked number).run = .ok (storage.minimum number) := by
  refine CheckedAnswer.run_bind_eq (h.segmentChecked_eq number)
    fun slots hslots => ?_
  have hnumber : number < storage.segmentCount := by
    rw [segment] at hslots
    split at hslots
    · exact lt_segmentCount ‹_›
    · contradiction
  rw [CheckedAnswer.run_lift_bind_eq (h.leafChecked_eq hnumber)]
  by_cases hcount : storage.counts.leaf number = 0
  · simp only [if_pos hcount]
    rfl
  · simp only [if_neg hcount]
    cases slots.minimum? <;> rfl

theorem Exact.position?Checked_eq (number : Nat) (key : Key) :
    (storage.position?Checked number key).run =
      .ok (storage.position? number key) :=
  CheckedAnswer.run_bind_eq (h.segmentChecked_eq number) fun _ _ => rfl

theorem Exact.leader?Checked_eq (number : Nat) :
    (storage.leader?Checked number).run = .ok (storage.leader? number) := by
  refine CheckedAnswer.run_bind_eq (h.countChecked_eq number) fun count _ => ?_
  by_cases hcount : count = 0
  · rw [if_pos hcount, if_pos hcount]
    rfl
  · rw [if_neg hcount, if_neg hcount]
    exact CheckedAnswer.run_bind_eq (h.minimumChecked_eq number) fun _ _ => rfl

theorem Exact.leadersChecked_eq (numbers : List Nat) :
    (storage.leadersChecked numbers).run = .ok (storage.leaders numbers) := by
  induction numbers with
  | nil => rfl
  | cons number rest ih =>
      refine CheckedAnswer.run_bind_eq (h.leader?Checked_eq number)
        fun leader _ => CheckedAnswer.run_bind_eq ih fun others _ => ?_
      cases leader <;> rfl

theorem Exact.totalChecked_eq :
    storage.counts.totalChecked = .ok storage.total := by
  obtain ⟨depth, hsize, -, -⟩ := h.size_held
  rw [total, h.counts_eq]
  exact CountTree.totalChecked_ofCounts hsize

theorem Exact.elementsChecked_eq
    (hwindow : window.start + window.length ≤ storage.segmentCount) :
    storage.counts.elementsChecked window.start window.length =
      .ok (storage.counts.elements window.start window.length) := by
  obtain ⟨depth, hsize, hcount, -⟩ := h.size_held
  rw [h.counts_eq]
  exact CountTree.elementsChecked_ofCounts hsize (by omega)

end Reading

end Storage

end PackedMemory
