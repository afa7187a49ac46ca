import PackedMemory.Proofs.Counters
import PackedMemory.Proofs.Segment
import PackedMemory.Storage.Window

/-!
# Exact storages

A storage is exact when all its segments have the same number of slots and its
counters are those of the entries in them.  Exactness says nothing about keys:
it is what every step on a storage keeps, in whatever order the keys stand.  A
step is described by the segments that it leaves, since these fix the counters.
-/

namespace PackedMemory

namespace Storage

def parts (storage : Storage) : List (List Entry) :=
  storage.segments.toList.map Segment.entries

def held (segments : Array Segment) : Array Nat :=
  segments.map fun segment => segment.entries.length

/-- The same storage with other segments, counted anew. -/
def withSegments (storage : Storage) (segments : Array Segment) : Storage :=
  { storage with segments, counts := CountTree.ofCounts (held segments) }

structure Exact (storage : Storage) : Prop extends shaped : storage.Shaped where
  length_segment : ∀ segment ∈ storage.segments,
    segment.length = storage.segmentCapacity
  counts_eq : storage.counts = CountTree.ofCounts (held storage.segments)

@[simp] theorem length_parts (storage : Storage) :
    storage.parts.length = storage.segmentCount := by
  simp [parts, segmentCount]

theorem entries_eq_flatten (storage : Storage) :
    storage.entries = storage.parts.flatten := by
  rw [entries, parts, List.flatMap_def]

theorem entries_eq_filterMap (storage : Storage) :
    storage.entries = storage.slots.filterMap id := by
  rw [entries, slots, List.flatMap_def, List.filterMap_flatten]
  rfl

theorem getElem?_parts (storage : Storage) (number : Nat) :
    storage.parts[number]? = storage.segments[number]?.map Segment.entries := by
  simp [parts]

theorem keys_slots (storage : Storage) :
    storage.slots.filterMap (Option.map Entry.key) =
      storage.entries.map Entry.key := by
  rw [slots, entries, List.flatMap_def, List.map_flatten,
    List.filterMap_flatten, List.map_map]
  congr 2
  funext segment
  simp only [Function.comp_apply, Segment.entries, List.map_filterMap]
  rfl

theorem part_eq {storage : Storage} {number : Nat} {segment : Segment}
    (hsegment : storage.segments[number]? = some segment) :
    storage.parts[number]? = some segment.entries := by
  rw [getElem?_parts, hsegment]
  rfl

theorem entries_sublist {storage : Storage} {number : Nat}
    {segment : Segment}
    (hsegment : storage.segments[number]? = some segment) :
    segment.entries.Sublist storage.entries := by
  rw [entries_eq_flatten]
  exact List.sublist_flatten_of_mem (List.mem_of_getElem? (part_eq hsegment))

theorem parts_withSegments (storage : Storage) (segments : Array Segment) :
    (storage.withSegments segments).parts =
      segments.toList.map Segment.entries := rfl

@[simp] theorem segmentCount_withSegments (storage : Storage)
    (segments : Array Segment) :
    (storage.withSegments segments).segmentCount = segments.size := rfl

@[simp] theorem withSegments_withSegments (storage : Storage)
    (first second : Array Segment) :
    (storage.withSegments first).withSegments second =
      storage.withSegments second := rfl

theorem parts_setIfInBounds (storage : Storage) (number : Nat)
    (segment : Segment) :
    (storage.withSegments (storage.segments.setIfInBounds number segment)).parts =
      storage.parts.set number segment.entries := by
  rw [parts_withSegments, Array.toList_setIfInBounds, List.map_set, parts]

theorem toList_held (segments : Array Segment) :
    (held segments).toList =
      (segments.toList.map Segment.entries).map List.length := by
  simp [held]

theorem exists_segment {storage : Storage} {number : Nat}
    (h : number < storage.segmentCount) :
    ∃ segment, storage.segments[number]? = some segment :=
  ⟨storage.segments[number], Array.getElem?_eq_getElem h⟩

theorem Exact.withSegments {storage : Storage} (h : storage.Exact)
    {segments : Array Segment} (hsize : segments.size = storage.segmentCount)
    (hlength : ∀ segment ∈ segments,
      segment.length = storage.segmentCapacity) :
    (storage.withSegments segments).Exact := by
  have hcapacity : (storage.withSegments segments).capacity =
      storage.capacity := by
    rw [Storage.capacity, Storage.capacity, ← hsize]
    rfl
  exact {
    usable := by rw [hcapacity]; exact h.usable
    segmentCapacity_eq := by rw [hcapacity]; exact h.segmentCapacity_eq
    length_segment := hlength
    counts_eq := rfl }

theorem exact_blank {capacity : Nat} (h : isUsableCapacity capacity = true) :
    (blank capacity).Exact := by
  have hshaped := shaped_blank h
  refine { hshaped with length_segment := ?_, counts_eq := ?_ }
  · intro segment hsegment
    obtain ⟨-, rfl⟩ := Array.mem_replicate.mp hsegment
    exact Segment.length_blank _
  · obtain ⟨width, depth, -, -, -, hcount⟩ := hshaped.exists_exponents
    have hsize : capacity / segmentCapacityFor capacity = 2 ^ depth := by
      simpa [blank, segmentCount] using hcount
    simp [blank, held, hsize, Nat.log2_two_pow, CountTree.empty_eq_ofCounts]

theorem parts_blank (capacity : Nat) :
    (blank capacity).parts =
      List.replicate (blank capacity).segmentCount [] := by
  simp [parts, blank, segmentCount]

theorem entries_blank (capacity : Nat) : (blank capacity).entries = [] := by
  rw [entries_eq_flatten, parts_blank, List.flatten_replicate_nil]

theorem Exact.size_held {storage : Storage} (h : storage.Exact) :
    ∃ depth, (held storage.segments).size = 2 ^ depth ∧
      storage.segmentCount = 2 ^ depth ∧ storage.height = depth + 1 := by
  obtain ⟨width, depth, -, -, -, hcount⟩ := h.shaped.exists_exponents
  have hsize : (held storage.segments).size = 2 ^ depth := by
    rw [held, Array.size_map]
    exact hcount
  refine ⟨depth, hsize, hcount, ?_⟩
  rw [height, h.counts_eq, CountTree.height_ofCounts, hsize, Nat.log2_two_pow]

theorem Exact.size_leaves {storage : Storage} (h : storage.Exact) :
    storage.counts.leaves.size = storage.segmentCount := by
  rw [h.counts_eq, CountTree.leaves_ofCounts, held, Array.size_map,
    segmentCount]

theorem Exact.height_congr {storage other : Storage} (h : storage.Exact)
    (hother : other.Exact)
    (hcount : other.segmentCount = storage.segmentCount) :
    other.height = storage.height := by
  obtain ⟨depth, -, hstorage, hheight⟩ := h.size_held
  obtain ⟨depth', -, hdepth, hotherHeight⟩ := hother.size_held
  rw [hcount, hstorage] at hdepth
  rw [hheight, hotherHeight, Nat.pow_right_injective (le_refl 2) hdepth]

/-! ## Reading -/

theorem Exact.total_eq {storage : Storage} (h : storage.Exact) :
    storage.total = storage.entries.length := by
  obtain ⟨depth, hsize, -, -⟩ := h.size_held
  rw [total, h.counts_eq, CountTree.total_ofCounts hsize, toList_held,
    entries_eq_flatten, List.length_flatten]
  rfl

def Tallied (storage : Storage) : Prop :=
  ∀ number segment, storage.segments[number]? = some segment →
    storage.counts.leaf number = segment.entries.length

theorem Exact.tallied {storage : Storage} (h : storage.Exact) :
    storage.Tallied := by
  intro number segment hsegment
  rw [h.counts_eq, CountTree.leaf, CountTree.leaves_ofCounts,
    Array.getD_eq_getD_getElem?, held, Array.getElem?_map, hsegment]
  rfl

theorem Exact.leaf_eq {storage : Storage} (h : storage.Exact) {number : Nat}
    {segment : Segment} (hsegment : storage.segments[number]? = some segment) :
    storage.counts.leaf number = segment.entries.length :=
  h.tallied number segment hsegment

theorem lt_segmentCount {storage : Storage} {number : Nat} {segment : Segment}
    (h : storage.segments[number]? = some segment) :
    number < storage.segmentCount :=
  (Array.getElem?_eq_some_iff.mp h).1

theorem segment_eq {storage : Storage} {number : Nat} {segment : Segment}
    (h : storage.segments[number]? = some segment) :
    storage.segment number = .ok segment := by
  rw [Storage.segment, h]

theorem position?_eq {storage : Storage} {number : Nat} {segment : Segment}
    (h : storage.segments[number]? = some segment) (key : Key) :
    storage.position? number key = .ok (segment.position? key) := by
  rw [position?, segment_eq h]
  rfl

theorem Exact.isFull_eq {storage : Storage} (h : storage.Exact) {number : Nat}
    {segment : Segment} (hsegment : storage.segments[number]? = some segment) :
    storage.isFull number =
      (segment.entries.length == storage.segmentCapacity) := by
  rw [isFull, h.leaf_eq hsegment,
    decide_eq_true (lt_segmentCount hsegment), Bool.true_and]

theorem Exact.length_lt_of_isFull_eq_false {storage : Storage}
    (h : storage.Exact) {number : Nat} {segment : Segment}
    (hsegment : storage.segments[number]? = some segment)
    (hfree : storage.isFull number = false) :
    segment.entries.length < storage.segmentCapacity := by
  have hslots := h.length_segment segment (Array.mem_of_getElem? hsegment)
  have hle := segment.length_entries_le
  rw [h.isFull_eq hsegment, beq_eq_false_iff_ne] at hfree
  omega

/-! ## Leaders -/

section Tallied

variable {storage : Storage} {number : Nat} {segment : Segment}

theorem Tallied.count_eq (h : storage.Tallied)
    (hsegment : storage.segments[number]? = some segment) :
    storage.count number = .ok segment.entries.length := by
  rw [count, if_pos (lt_segmentCount hsegment), h number segment hsegment]

theorem Tallied.minimum_eq (h : storage.Tallied)
    (hsegment : storage.segments[number]? = some segment) {entry : Entry}
    (hentry : segment.entries.head? = some entry) :
    storage.minimum number = .ok entry.key := by
  have hcount : segment.entries.length ≠ 0 := by
    intro hzero
    simp [List.length_eq_zero_iff.mp hzero] at hentry
  simp only [minimum, segment_eq hsegment, h number segment hsegment,
    Segment.minimum?, hentry, bind, Except.bind, if_neg hcount, Option.map_some]

theorem Tallied.leader?_eq (h : storage.Tallied)
    (hsegment : storage.segments[number]? = some segment) :
    storage.leader? number = .ok (segment.entries.head?.map Entry.key) := by
  rw [leader?, h.count_eq hsegment]
  cases hentries : segment.entries with
  | nil => rfl
  | cons entry rest =>
      have hhead : segment.entries.head? = some entry := by
        rw [hentries]
        rfl
      have hminimum := h.minimum_eq hsegment hhead
      simp [bind, Except.bind, hminimum, pure, Except.pure]

theorem Tallied.leaders_range' (h : storage.Tallied) {start length : Nat}
    (hrange : start + length ≤ storage.segmentCount) :
    storage.leaders (List.range' start length) =
      .ok (firstKeys start ((storage.parts.drop start).take length)) := by
  induction length generalizing start with
  | zero => simp [leaders, firstKeys]
  | succ length ih =>
      have hstart : start < storage.segmentCount := by omega
      obtain ⟨segment, hsegment⟩ := exists_segment hstart
      have hpart : storage.parts.drop start =
          segment.entries :: storage.parts.drop (start + 1) := by
        have hget := storage.getElem?_parts start
        rw [hsegment] at hget
        obtain ⟨hlt, hvalue⟩ := List.getElem?_eq_some_iff.mp hget
        rw [List.drop_eq_getElem_cons hlt, hvalue]
      rw [List.range'_succ, leaders, h.leader?_eq hsegment, ih (by omega),
        hpart, List.take_succ_cons]
      cases hentries : segment.entries with
      | nil => rfl
      | cons entry rest => rfl

theorem Tallied.leaders_range (h : storage.Tallied) :
    storage.leaders (List.range storage.segmentCount) =
      .ok (firstKeys 0 storage.parts) := by
  rw [List.range_eq_range', h.leaders_range' (by omega), List.drop_zero,
    List.take_of_length_le (by simp)]

end Tallied

theorem Exact.minimum_eq {storage : Storage} (h : storage.Exact) {number : Nat}
    {segment : Segment} (hsegment : storage.segments[number]? = some segment)
    {entry : Entry} (hentry : segment.entries.head? = some entry) :
    storage.minimum number = .ok entry.key :=
  h.tallied.minimum_eq hsegment hentry

theorem Exact.leader?_eq {storage : Storage} (h : storage.Exact) {number : Nat}
    {segment : Segment} (hsegment : storage.segments[number]? = some segment) :
    storage.leader? number = .ok (segment.entries.head?.map Entry.key) :=
  h.tallied.leader?_eq hsegment

theorem Exact.leaders_range' {storage : Storage} (h : storage.Exact)
    {start length : Nat} (hrange : start + length ≤ storage.segmentCount) :
    storage.leaders (List.range' start length) =
      .ok (firstKeys start ((storage.parts.drop start).take length)) :=
  h.tallied.leaders_range' hrange

end Storage

end PackedMemory
