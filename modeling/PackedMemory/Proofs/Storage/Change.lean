import PackedMemory.Proofs.Storage.Exact
import PackedMemory.Shares.Lemmas

/-!
# Steps on exact storages

Insertion and removal change one segment, draining and filling change a window.
Each step succeeds under its precondition, changes the segments as stated and
counts them correctly.
-/

namespace PackedMemory

namespace Storage

theorem held_setIfInBounds (segments : Array Segment) (number : Nat)
    (segment : Segment) :
    held (segments.setIfInBounds number segment) =
      (held segments).setIfInBounds number segment.entries.length := by
  rw [held, Array.map_setIfInBounds]
  rfl

theorem modify_held {segments : Array Segment} {number : Nat}
    {old new : Segment} {change : Nat → Nat}
    (hold : segments[number]? = some old)
    (hchange : change old.entries.length = new.entries.length) :
    (held segments).modify number change =
      held (segments.setIfInBounds number new) := by
  rw [held_setIfInBounds]
  apply Array.ext_getElem?
  intro position
  rw [Array.getElem?_modify, Array.getElem?_setIfInBounds]
  obtain ⟨hnumber, -⟩ := Array.getElem?_eq_some_iff.mp hold
  by_cases hposition : number = position
  · subst hposition
    have hheld : (held segments)[number]? = some old.entries.length := by
      rw [held, Array.getElem?_map, hold]
      rfl
    have hsize : number < (held segments).size := by
      rw [held, Array.size_map]
      exact hnumber
    rw [if_pos rfl, if_pos rfl, if_pos hsize, hheld, Option.map_some, hchange]
  · rw [if_neg hposition, if_neg hposition]

theorem Exact.insert_eq {storage : Storage} (h : storage.Exact) {number : Nat}
    {segment : Segment} (hsegment : storage.segments[number]? = some segment)
    (hgap : segment.entries.length < storage.segmentCapacity) (entry : Entry) :
    storage.insert number entry =
      (.ok (segment.leads entry.key), storage.withSegments
        (storage.segments.setIfInBounds number (segment.insert entry))) := by
  obtain ⟨depth, hsize, -, -⟩ := h.size_held
  have hlength := h.length_segment segment (Array.mem_of_getElem? hsegment)
  have hfull : storage.isFull number = false := by
    rw [h.isFull_eq hsegment, beq_eq_false_iff_ne]
    omega
  have hnone : none ∈ segment := Segment.none_mem_of_length_lt (by omega)
  have hcounts : storage.counts.increment number = CountTree.ofCounts
      (held (storage.segments.setIfInBounds number (segment.insert entry))) := by
    rw [h.counts_eq, CountTree.increment_ofCounts hsize]
    congr 1
    exact modify_held hsegment
      (Segment.inserts_insert entry segment).length_eq.symm
  simp only [insert, hsegment, hfull, Segment.insert?_eq_some hnone, hcounts]
  rfl

theorem Exact.exact_insert {storage : Storage} (h : storage.Exact)
    {number : Nat} {segment : Segment}
    (hsegment : storage.segments[number]? = some segment)
    (hgap : segment.entries.length < storage.segmentCapacity) (entry : Entry) :
    (storage.withSegments (storage.segments.setIfInBounds number
      (segment.insert entry))).Exact := by
  have hlength := h.length_segment segment (Array.mem_of_getElem? hsegment)
  refine h.withSegments (by rw [Array.size_setIfInBounds]; rfl) ?_
  intro other hother
  rcases Array.mem_or_eq_of_mem_setIfInBounds hother with hother | rfl
  · exact h.length_segment other hother
  · rw [Segment.length_insert (Segment.none_mem_of_length_lt (by omega)), hlength]

theorem Exact.removeAt_eq {storage : Storage} (h : storage.Exact)
    {number offset : Nat} {segment : Segment} {entry : Entry}
    (hsegment : storage.segments[number]? = some segment)
    (hentry : segment[offset]? = some (some entry)) :
    storage.removeAt number offset =
      (.ok (some entry), storage.withSegments
        (storage.segments.setIfInBounds number (segment.set offset none))) := by
  obtain ⟨depth, hsize, -, -⟩ := h.size_held
  have hlength := h.length_segment segment (Array.mem_of_getElem? hsegment)
  obtain ⟨hoffset, -⟩ := List.getElem?_eq_some_iff.mp hentry
  have hinserts := (Segment.inserts_set_none hentry).length_eq
  have hheld : (held storage.segments).getD number 0 = segment.entries.length := by
    simp [held, hsegment]
  have hcounts : storage.counts.decrement number = CountTree.ofCounts
      (held (storage.segments.setIfInBounds number
        (segment.set offset none))) := by
    rw [h.counts_eq, CountTree.decrement_ofCounts hsize (by omega)]
    congr 1
    exact modify_held hsegment (by omega)
  have hgetD : segment.getD offset none = some entry := by
    rw [List.getD_eq_getElem?_getD, hentry]
    rfl
  have hrange : ¬storage.segmentCapacity ≤ offset := by omega
  simp only [removeAt, hsegment, if_neg hrange, hgetD, hcounts]
  rfl

theorem Exact.exact_removeAt {storage : Storage} (h : storage.Exact)
    {number : Nat} {segment : Segment}
    (hsegment : storage.segments[number]? = some segment) (offset : Nat) :
    (storage.withSegments (storage.segments.setIfInBounds number
      (segment.set offset none))).Exact := by
  refine h.withSegments (by rw [Array.size_setIfInBounds]; rfl) ?_
  intro other hother
  rcases Array.mem_or_eq_of_mem_setIfInBounds hother with hother | rfl
  · exact h.length_segment other hother
  · rw [List.length_set]
    exact h.length_segment segment (Array.mem_of_getElem? hsegment)

/-! ## Windows -/

theorem overwrite_overwrite {α : Type} (cells : Array α) (start : Nat)
    {first second : List α} (h : first.length = second.length) :
    overwrite (overwrite cells start first) start second =
      overwrite cells start second := by
  apply Array.ext_getElem?
  intro position
  simp only [getElem?_overwrite, size_overwrite, h]
  split <;> rfl

theorem held_overwrite (segments : Array Segment) (start : Nat)
    (run : List Segment) :
    held (overwrite segments start run) =
      overwrite (held segments) start
        (run.map fun segment => segment.entries.length) := by
  apply Array.ext_getElem?
  intro position
  simp only [held, Array.getElem?_map, getElem?_overwrite, List.length_map,
    Array.size_map, List.getElem?_map]
  split
  · split <;> rfl
  · rfl

theorem Exact.replace_eq {storage : Storage} (h : storage.Exact) (start : Nat)
    {run : List Segment} {counts : List Nat}
    (hcounts : (run.map fun segment => segment.entries.length) = counts) :
    storage.replace start run counts =
      storage.withSegments (overwrite storage.segments start run) := by
  obtain ⟨depth, hsize, -, -⟩ := h.size_held
  rw [replace, Storage.withSegments, h.counts_eq, CountTree.record_ofCounts hsize,
    held_overwrite, hcounts]

def dealt (storage : Storage) (window : Window) (entries : List Entry) :
    List Segment :=
  (deal (shares entries.length window.length) entries).map
    (Segment.layOut storage.segmentCapacity)

@[simp] theorem length_dealt (storage : Storage) (window : Window)
    (entries : List Entry) :
    (storage.dealt window entries).length = window.length := by
  simp [dealt]

theorem map_entries_dealt (storage : Storage) (window : Window)
    (entries : List Entry) :
    (storage.dealt window entries).map Segment.entries =
      deal (shares entries.length window.length) entries := by
  rw [dealt, List.map_map]
  exact (List.map_congr_left fun part _ =>
    Segment.entries_layOut _ part).trans (List.map_id _)

theorem flatten_deal_shares {length : Nat} (h : 0 < length)
    (entries : List Entry) :
    (deal (shares entries.length length) entries).flatten = entries :=
  flatten_deal (by rw [sum_shares h])

theorem map_length_deal_shares {length : Nat} (h : 0 < length)
    (entries : List Entry) :
    (deal (shares entries.length length) entries).map List.length =
      shares entries.length length :=
  map_length_deal (by rw [sum_shares h])

theorem map_length_dealt (storage : Storage) {window : Window}
    (h : 0 < window.length) (entries : List Entry) :
    ((storage.dealt window entries).map fun segment =>
      segment.entries.length) = shares entries.length window.length := by
  rw [← map_length_deal_shares h, ← map_entries_dealt storage, List.map_map]
  rfl

theorem length_of_mem_dealt {storage : Storage} {window : Window}
    (h : 0 < window.length) {entries : List Entry}
    (hfit : entries.length ≤ window.length * storage.segmentCapacity)
    {segment : Segment} (hsegment : segment ∈ storage.dealt window entries) :
    segment.length = storage.segmentCapacity := by
  obtain ⟨part, hpart, rfl⟩ := List.mem_map.mp hsegment
  apply Segment.length_layOut
  refine le_of_mem_shares hfit ?_
  rw [← map_length_deal_shares h]
  exact List.mem_map_of_mem hpart

/-- The same storage with a window holding the given entries, evenly dealt. -/
def dealOut (storage : Storage) (window : Window) (entries : List Entry) :
    Storage :=
  storage.withSegments
    (overwrite storage.segments window.start (storage.dealt window entries))

@[simp] theorem segmentCount_dealOut (storage : Storage) (window : Window)
    (entries : List Entry) :
    (storage.dealOut window entries).segmentCount = storage.segmentCount := by
  rw [dealOut, segmentCount_withSegments, size_overwrite]
  rfl

theorem Exact.exact_overwrite {storage : Storage} (h : storage.Exact)
    (start : Nat) {run : List Segment}
    (hrun : ∀ segment ∈ run, segment.length = storage.segmentCapacity) :
    (storage.withSegments (overwrite storage.segments start run)).Exact := by
  refine h.withSegments (by rw [size_overwrite]; rfl) ?_
  intro segment hsegment
  obtain ⟨position, hposition⟩ := Array.mem_iff_getElem?.mp hsegment
  rw [getElem?_overwrite] at hposition
  split at hposition
  · split at hposition
    · exact hrun segment (List.mem_of_getElem? hposition)
    · contradiction
  · exact h.length_segment segment (Array.mem_of_getElem? hposition)

theorem Exact.exact_dealOut {storage : Storage} (h : storage.Exact)
    {window : Window} (hwindow : 0 < window.length) {entries : List Entry}
    (hfit : entries.length ≤ window.length * storage.segmentCapacity) :
    (storage.dealOut window entries).Exact :=
  h.exact_overwrite window.start fun _ => length_of_mem_dealt hwindow hfit

theorem parts_dealOut {storage : Storage} {window : Window}
    (h : window.start + window.length ≤ storage.segmentCount)
    (entries : List Entry) :
    (storage.dealOut window entries).parts =
      storage.parts.take window.start ++
        deal (shares entries.length window.length) entries ++
          storage.parts.drop (window.start + window.length) := by
  rw [dealOut, parts_withSegments, toList_overwrite _ _ _ (by
    rw [length_dealt]; exact h)]
  simp only [List.map_append, map_entries_dealt, length_dealt, List.map_take,
    List.map_drop, parts]

def partsOf (storage : Storage) (window : Window) : List (List Entry) :=
  (storage.parts.drop window.start).take window.length

def occupied (storage : Storage) (window : Window) : Nat :=
  (storage.partsOf window).flatten.length

theorem sum_held (storage : Storage) (window : Window) :
    (((held storage.segments).toList.drop window.start).take
      window.length).sum = storage.occupied window := by
  rw [toList_held, occupied, partsOf, List.length_flatten, List.map_take,
    List.map_drop, parts]

theorem Exact.elements_eq {storage : Storage} (h : storage.Exact)
    {window : Window}
    (hwindow : window.start + window.length ≤ storage.segmentCount) :
    storage.elements window = .ok (storage.occupied window) := by
  obtain ⟨depth, hsize, hcount, -⟩ := h.size_held
  rw [elements, if_pos hwindow, h.counts_eq,
    CountTree.elements_ofCounts hsize (by omega), sum_held]

theorem checkWindow_eq {storage : Storage} {window : Window}
    (hlength : 0 < window.length)
    (hwindow : window.start + window.length ≤ storage.segmentCount) :
    storage.checkWindow window = .ok () := by
  rw [checkWindow, if_pos ⟨hlength, hwindow⟩]

theorem flatMap_segmentsOf (storage : Storage) (window : Window) :
    (storage.segmentsOf window).flatMap Segment.entries =
      (storage.partsOf window).flatten := by
  rw [segmentsOf, Array.toList_extract, List.extract_eq_take_drop,
    Nat.add_sub_cancel_left, List.flatMap_def, partsOf, parts, List.map_take,
    List.map_drop]

def blanks (storage : Storage) (window : Window) : List Segment :=
  List.replicate window.length (Segment.blank storage.segmentCapacity)

theorem length_of_mem_blanks (storage : Storage) (window : Window) :
    ∀ segment ∈ storage.blanks window,
      segment.length = storage.segmentCapacity := by
  intro segment hsegment
  rw [(List.mem_replicate.mp hsegment).2]
  exact Segment.length_blank _

theorem Exact.drain_eq {storage : Storage} (h : storage.Exact)
    {window : Window} (hlength : 0 < window.length)
    (hwindow : window.start + window.length ≤ storage.segmentCount) :
    storage.drain window =
      (.ok (storage.partsOf window).flatten, storage.withSegments
        (overwrite storage.segments window.start (storage.blanks window))) := by
  have hcounts : ((storage.blanks window).map fun segment =>
      segment.entries.length) = List.replicate window.length 0 := by
    simp [blanks]
  have hreplace := h.replace_eq window.start hcounts
  rw [drain, checkWindow_eq hlength hwindow, flatMap_segmentsOf]
  exact congrArg _ hreplace

theorem Exact.fill_eq {storage : Storage} (h : storage.Exact)
    {window : Window} (hlength : 0 < window.length)
    (hwindow : window.start + window.length ≤ storage.segmentCount)
    (hempty : storage.occupied window = 0) {entries : List Entry}
    (hfit : entries.length ≤ window.length * storage.segmentCapacity) :
    storage.fill window entries =
      (.ok (firstKeys window.start
          (deal (shares entries.length window.length) entries)),
        storage.dealOut window entries) := by
  have helements : storage.counts.elements window.start window.length = 0 := by
    have h := h.elements_eq hwindow
    rw [elements, if_pos hwindow, hempty] at h
    exact Except.ok.inj h
  have hreplace := h.replace_eq window.start
    (storage.map_length_dealt hlength entries)
  simp only [fill, checkWindow_eq hlength hwindow, helements,
    if_neg (Nat.not_lt.mpr hfit), ne_eq, not_true_eq_false, if_false]
  exact congrArg _ hreplace

theorem partsOf_overwrite {storage : Storage} {window : Window}
    (hwindow : window.start + window.length ≤ storage.segmentCount)
    {run : List Segment} (hrun : run.length = window.length) :
    (storage.withSegments (overwrite storage.segments window.start run)).partsOf
      window = run.map Segment.entries := by
  have hcells : window.start + run.length ≤ storage.segments.size := by
    rw [hrun]
    exact hwindow
  have hbefore : (storage.parts.take window.start).length = window.start := by
    rw [List.length_take, length_parts]
    omega
  rw [partsOf, parts_withSegments, toList_overwrite _ _ _ hcells,
    List.map_append, List.map_append, List.map_take, ← parts,
    List.append_assoc, List.drop_left' hbefore,
    List.take_left' (by simpa using hrun)]

theorem partsOf_dealOut_self {storage : Storage} {window : Window}
    (hwindow : window.start + window.length ≤ storage.segmentCount)
    (entries : List Entry) :
    (storage.dealOut window entries).partsOf window =
      deal (shares entries.length window.length) entries := by
  rw [dealOut, partsOf_overwrite hwindow (length_dealt _ _ _),
    map_entries_dealt]

@[simp] theorem length_blanks (storage : Storage) (window : Window) :
    (storage.blanks window).length = window.length :=
  List.length_replicate

theorem occupied_blanks {storage : Storage} {window : Window}
    (hwindow : window.start + window.length ≤ storage.segmentCount) :
    (storage.withSegments (overwrite storage.segments window.start
      (storage.blanks window))).occupied window = 0 := by
  rw [occupied, partsOf_overwrite hwindow (length_blanks _ _)]
  simp [blanks]

theorem Exact.fill_drain {storage : Storage} (h : storage.Exact)
    {window : Window} (hlength : 0 < window.length)
    (hwindow : window.start + window.length ≤ storage.segmentCount)
    {entries : List Entry}
    (hfit : entries.length ≤ window.length * storage.segmentCapacity) :
    (storage.drain window).2.fill window entries =
      (.ok (firstKeys window.start
          (deal (shares entries.length window.length) entries)),
        storage.dealOut window entries) := by
  have hdrained := h.exact_overwrite window.start
    (storage.length_of_mem_blanks window)
  have hcells : window.start + window.length ≤
      (storage.withSegments (overwrite storage.segments window.start
        (storage.blanks window))).segmentCount := by
    rw [segmentCount_withSegments, size_overwrite]
    exact hwindow
  rw [h.drain_eq hlength hwindow, hdrained.fill_eq hlength hcells
    (occupied_blanks hwindow) hfit]
  refine congrArg _ ?_
  rw [dealOut, dealOut, withSegments_withSegments]
  exact congrArg _ (overwrite_overwrite storage.segments window.start (by
    rw [length_blanks, length_dealt]))

end Storage

end PackedMemory
