import Mathlib
import PackedMemory.Segment

/-!
# Insertion into a segment

What a segment holds after an insertion can be said in one line: the first gap
is given up, and the entry goes before the first larger key.  The scan and the
block moves that get there depend on where the gap and the larger key stand.
-/

namespace PackedMemory

namespace Segment

def precedes (key : Key) (slot : Slot) : Bool :=
  slot.all fun entry => entry.key ≤ key

def insert (entry : Entry) (segment : Segment) : Segment :=
  let packed := segment.erase none
  packed.takeWhile (precedes entry.key) ++
    some entry :: packed.dropWhile (precedes entry.key)

def leads (key : Key) (segment : Segment) : Bool :=
  ((segment.erase none).takeWhile (precedes key)).all Option.isNone

@[simp] theorem precedes_none (key : Key) : precedes key none = true := rfl

@[simp] theorem precedes_some (key : Key) (entry : Entry) :
    precedes key (some entry) = decide (entry.key ≤ key) := rfl

theorem entries_erase_none (segment : Segment) :
    entries (segment.erase none) = segment.entries := by
  induction segment with
  | nil => rfl
  | cons slot rest ih =>
      cases slot with
      | none => simp
      | some entry => simp [ih]

theorem entries_takeWhile_precedes (key : Key) (segment : Segment) :
    entries (segment.takeWhile (precedes key)) =
      segment.entries.takeWhile fun entry => entry.key ≤ key := by
  induction segment with
  | nil => rfl
  | cons slot rest ih =>
      cases slot with
      | none => simp [List.takeWhile_cons, ih]
      | some entry => by_cases h : entry.key ≤ key <;> simp [h, ih]

theorem entries_dropWhile_precedes (key : Key) (segment : Segment) :
    entries (segment.dropWhile (precedes key)) =
      segment.entries.dropWhile fun entry => entry.key ≤ key := by
  induction segment with
  | nil => rfl
  | cons slot rest ih =>
      cases slot with
      | none => simp [List.dropWhile_cons, ih]
      | some entry => by_cases h : entry.key ≤ key <;> simp [h, ih]

theorem entries_insert (entry : Entry) (segment : Segment) :
    (segment.insert entry).entries =
      segment.entries.takeWhile (fun other => other.key ≤ entry.key) ++
        entry ::
          segment.entries.dropWhile fun other => other.key ≤ entry.key := by
  simp only [insert, entries_append, entries_some, entries_takeWhile_precedes,
    entries_dropWhile_precedes, entries_erase_none]

theorem length_insert {entry : Entry} {segment : Segment}
    (h : none ∈ segment) :
    (segment.insert entry).length = segment.length := by
  have hpacked : (segment.erase none).length = segment.length - 1 :=
    List.length_erase_of_mem h
  have hsplit := congrArg List.length
    (List.takeWhile_append_dropWhile (p := precedes entry.key)
      (l := segment.erase none))
  have hpositive : 0 < segment.length := List.length_pos_of_mem h
  simp only [List.length_append] at hsplit
  simp only [insert, List.length_append, List.length_cons]
  omega

theorem leads_iff (key : Key) (segment : Segment) :
    segment.leads key = true ↔
      ∀ entry ∈ segment.entries.head?, key < entry.key := by
  unfold leads
  rw [← entries_erase_none segment]
  induction segment.erase none with
  | nil => simp
  | cons slot rest ih =>
      cases slot with
      | none => simpa [List.takeWhile_cons] using ih
      | some entry =>
          by_cases h : entry.key ≤ key
          · simp [h]
          · simp [h]
            grind

variable {segment : Segment} {entry : Entry} {key : Key}

def firstGap (segment : Segment) : Nat := segment.idxOf none

def firstLarger (key : Key) (segment : Segment) : Nat :=
  segment.findIdx fun slot => !precedes key slot

/--
Where an entry comes to stand: before the first larger key, or in its slot when
the larger keys move up into a gap behind them.
-/
def landing (key : Key) (segment : Segment) : Nat :=
  if segment.firstGap < segment.firstLarger key then
    segment.firstLarger key - 1
  else
    segment.firstLarger key

@[simp] theorem firstGap_none (rest : Segment) :
    firstGap (none :: rest) = 0 := by
  simp [firstGap]

@[simp] theorem firstGap_some (other : Entry) (rest : Segment) :
    firstGap (some other :: rest) = rest.firstGap + 1 := by
  simp [firstGap]

theorem firstGap_lt_length (h : none ∈ segment) :
    segment.firstGap < segment.length :=
  List.idxOf_lt_length_iff.mpr h

theorem firstLarger_le_length (key : Key) (segment : Segment) :
    segment.firstLarger key ≤ segment.length :=
  List.findIdx_le_length

theorem firstLarger_cons (key : Key) (slot : Slot) (rest : Segment) :
    firstLarger key (slot :: rest) =
      if precedes key slot then rest.firstLarger key + 1 else 0 := by
  rw [firstLarger, List.findIdx_cons]
  cases precedes key slot <;> rfl

theorem length_takeWhile_erase (key : Key) (segment : Segment) :
    ((segment.erase none).takeWhile (precedes key)).length =
      segment.landing key := by
  rw [List.takeWhile_eq_take_findIdx_not,
    List.length_take_of_le List.findIdx_le_length]
  induction segment with
  | nil => rfl
  | cons slot rest ih =>
      cases slot with
      | none =>
          rw [List.erase_cons_head, landing, firstGap_none, firstLarger_cons,
            precedes_none, if_pos rfl, if_pos (Nat.succ_pos _)]
          rfl
      | some other =>
          rw [List.erase_cons_tail (by simp), List.findIdx_cons, ih, landing,
            landing, firstGap_some, firstLarger_cons]
          cases precedes key (some other) with
          | false => rfl
          | true =>
              simp only [Bool.not_true, if_true, cond_false]
              split <;> split <;> omega

theorem eraseIdx_firstGap (segment : Segment) :
    segment.eraseIdx segment.firstGap = segment.erase none :=
  (List.erase_eq_eraseIdx_of_idxOf rfl).symm

theorem insert_eq_insertIdx (entry : Entry) (segment : Segment) :
    segment.insert entry =
      (segment.eraseIdx segment.firstGap).insertIdx
        (segment.landing entry.key) (some entry) := by
  have hsplit := List.takeWhile_append_dropWhile
    (p := precedes entry.key) (l := segment.erase none)
  rw [eraseIdx_firstGap, ← length_takeWhile_erase, ← congrArg
    (List.insertIdx · _ (some entry)) hsplit]
  exact (List.modifyTailIdx_add (List.cons (some entry)) 0 _ _).symm

theorem landing_lt_length (h : none ∈ segment) (key : Key) :
    segment.landing key < segment.length := by
  have hpositive := List.length_pos_of_mem h
  have hle := ((segment.erase none).takeWhile_sublist (precedes key)).length_le
  rw [length_takeWhile_erase, List.length_erase_of_mem h] at hle
  omega

theorem take_landing_insert (entry : Entry) (segment : Segment) :
    (segment.insert entry).take (segment.landing entry.key) =
      (segment.erase none).takeWhile (precedes entry.key) :=
  List.take_left' (length_takeWhile_erase entry.key segment)

/-! ## The scan -/

theorem Sighting.gap_note (key : Key) (offset : Nat) (seen : Sighting)
    (slot : Slot) :
    (seen.note key offset slot).gap =
      seen.gap.or (if slot.isNone then some offset else none) := by
  cases slot with
  | none => rfl
  | some entry =>
      simp only [note, Option.isNone_some, Bool.false_eq_true, if_false,
        Option.or_none]
      split <;> rfl

theorem Sighting.larger_note (key : Key) (offset : Nat) (seen : Sighting)
    (slot : Slot) :
    (seen.note key offset slot).larger =
      seen.larger.or (if !precedes key slot then some offset else none) := by
  cases slot with
  | none => simp [note]
  | some entry =>
      by_cases h : key < entry.key
      · simp [note, h, Int64.not_le.mpr h]
      · simp [note, h, Int64.not_lt.mp h]

theorem map_findIdx?_cons {α : Type} (p : α → Bool) (first : α)
    (rest : List α) (offset : Nat) :
    ((first :: rest).findIdx? p).map (· + offset) =
      (if p first then some offset else none).or
        ((rest.findIdx? p).map (· + (offset + 1))) := by
  rw [List.findIdx?_cons]
  cases p first with
  | true => simp
  | false =>
      simp only [Bool.false_eq_true, if_false, Option.none_or, Option.map_map]
      congr 1
      funext position
      simp only [Function.comp_apply]
      omega

/-- To stop early loses nothing: what is met first is kept. -/
theorem scan_eq (key : Key) (offset : Nat) (seen : Sighting)
    (segment : Segment) :
    scan key offset seen segment =
      ⟨seen.gap.or ((segment.findIdx? Option.isNone).map (· + offset)),
        seen.larger.or ((segment.findIdx? fun slot => !precedes key slot).map
          (· + offset))⟩ := by
  induction segment generalizing offset seen with
  | nil => simp [scan]
  | cons slot rest ih =>
      rw [map_findIdx?_cons, map_findIdx?_cons, ← Option.or_assoc,
        ← Option.or_assoc, ← Sighting.gap_note, ← Sighting.larger_note, scan]
      generalize seen.note key offset slot = next
      cases hcomplete : next.isComplete with
      | false => simp only [Bool.false_eq_true, if_false, ih]
      | true =>
          simp only [Sighting.isComplete, Bool.and_eq_true] at hcomplete
          rw [if_pos rfl, Option.or_of_isSome hcomplete.1,
            Option.or_of_isSome hcomplete.2]

theorem scan_start (key : Key) (segment : Segment) :
    scan key 0 ⟨none, none⟩ segment =
      ⟨segment.findIdx? Option.isNone,
        segment.findIdx? fun slot => !precedes key slot⟩ := by
  simp [scan_eq]

theorem gap_scan (h : none ∈ segment) (key : Key) :
    (scan key 0 ⟨none, none⟩ segment).gap = some segment.firstGap := by
  rw [scan_start]
  refine List.findIdx?_eq_some_iff_findIdx_eq.mpr ⟨firstGap_lt_length h, ?_⟩
  rw [firstGap, List.idxOf]
  congr 1
  funext slot
  cases slot <;> rfl

theorem larger_scan (key : Key) (segment : Segment) :
    (scan key 0 ⟨none, none⟩ segment).larger =
      if segment.firstLarger key < segment.length then
        some (segment.firstLarger key)
      else
        none := by
  rw [scan_start]
  split
  · exact List.findIdx?_eq_some_iff_findIdx_eq.mpr ⟨‹_›, rfl⟩
  · have hle := segment.firstLarger_le_length key
    refine List.findIdx?_eq_none_iff_findIdx_eq.mpr ?_
    change segment.firstLarger key = _
    omega

/-! ## The block moves -/

theorem length_copyWithin {start stop target : Nat}
    (hstop : stop ≤ segment.length)
    (htarget : target + (stop - start) ≤ segment.length) :
    (segment.copyWithin start stop target).length = segment.length := by
  simp only [copyWithin, List.length_append, List.length_take, List.length_drop]
  omega

theorem makeWay_bounds {gap : Nat} {larger : Option Nat}
    (hgap : gap < segment.length)
    (hlarger : ∀ offset, larger = some offset → offset < segment.length) :
    (segment.makeWay gap larger).1 < segment.length ∧
      (segment.makeWay gap larger).2.length = segment.length := by
  cases larger with
  | none =>
      rw [makeWay]
      exact ⟨by omega, length_copyWithin (by omega) (by omega)⟩
  | some offset =>
      have hoffset := hlarger offset rfl
      rw [makeWay]
      split
      · exact ⟨by omega, length_copyWithin (by omega) (by omega)⟩
      · exact ⟨hoffset, length_copyWithin (by omega) (by omega)⟩

theorem getElem?_copyWithin {start stop target : Nat} (hstart : start ≤ stop)
    (hstop : stop ≤ segment.length)
    (htarget : target + (stop - start) ≤ segment.length) (offset : Nat) :
    (segment.copyWithin start stop target)[offset]? =
      if target ≤ offset ∧ offset < target + (stop - start) then
        segment[start + (offset - target)]?
      else
        segment[offset]? := by
  have hrun : ((segment.take stop).drop start).length = stop - start := by
    rw [List.length_drop, List.length_take_of_le hstop]
  have hbefore : (segment.take target).length = target :=
    List.length_take_of_le (by omega)
  simp only [copyWithin, hrun]
  rw [List.append_assoc, List.getElem?_append, List.getElem?_append, hbefore,
    hrun]
  split
  · rw [if_neg (by omega), List.getElem?_take_of_lt ‹_›]
  · split
    · rw [if_pos (by omega), List.getElem?_drop,
        List.getElem?_take_of_lt (by omega)]
    · rw [if_neg (by omega), List.getElem?_drop]
      congr 1
      omega

theorem set_copyWithin_left {gap stop : Nat} (hgap : gap < stop)
    (hstop : stop ≤ segment.length) (slot : Slot) :
    (segment.copyWithin (gap + 1) stop gap).set (stop - 1) slot =
      (segment.eraseIdx gap).insertIdx (stop - 1) slot := by
  apply List.ext_getElem?
  intro offset
  rw [List.getElem?_set, length_copyWithin hstop (by omega),
    getElem?_copyWithin hgap hstop (by omega), List.getElem?_insertIdx,
    List.length_eraseIdx_of_lt (by omega), List.getElem?_eraseIdx,
    List.getElem?_eraseIdx]
  rcases Nat.lt_trichotomy offset (stop - 1) with hlt | rfl | hgt
  · rw [if_neg (by omega), if_pos hlt]
    by_cases hbefore : offset < gap
    · rw [if_neg (by omega), if_pos hbefore]
    · rw [if_pos (by omega), if_neg hbefore]
      congr 1
      omega
  · rw [if_pos rfl, if_pos (by omega), if_neg (by omega), if_pos rfl,
      if_pos (by omega)]
  · rw [if_neg (by omega), if_neg (by omega), if_neg (by omega),
      if_neg (by omega), if_neg (by omega), Nat.sub_add_cancel (by omega)]

theorem set_copyWithin_right {gap place : Nat} (hplace : place ≤ gap)
    (hgap : gap < segment.length) (slot : Slot) :
    (segment.copyWithin place gap (place + 1)).set place slot =
      (segment.eraseIdx gap).insertIdx place slot := by
  apply List.ext_getElem?
  intro offset
  rw [List.getElem?_set, length_copyWithin (by omega) (by omega),
    getElem?_copyWithin hplace (by omega) (by omega), List.getElem?_insertIdx,
    List.length_eraseIdx_of_lt hgap, List.getElem?_eraseIdx,
    List.getElem?_eraseIdx]
  rcases Nat.lt_trichotomy offset place with hlt | rfl | hgt
  · rw [if_neg (by omega), if_neg (by omega), if_pos hlt, if_pos (by omega)]
  · rw [if_pos rfl, if_pos (by omega), if_neg (by omega), if_pos rfl,
      if_pos (by omega)]
  · rw [if_neg hgt.ne]
    by_cases hmoved : offset ≤ gap
    · rw [if_pos (by omega), if_neg (by omega), if_neg (by omega),
        if_pos (by omega)]
      congr 1
      omega
    · rw [if_neg (by omega), if_neg (by omega), if_neg (by omega),
        if_neg (by omega), Nat.sub_add_cancel (by omega)]

/-- Whichever way the slots move, the entry's place becomes free. -/
theorem makeWay_firstGap (h : none ∈ segment) (entry : Entry) :
    ∃ moved,
      segment.makeWay segment.firstGap
          (scan entry.key 0 ⟨none, none⟩ segment).larger =
        (segment.landing entry.key, moved) ∧
      moved.set (segment.landing entry.key) (some entry) =
        segment.insert entry := by
  have hgap := firstGap_lt_length h
  have hle := segment.firstLarger_le_length entry.key
  rw [larger_scan, insert_eq_insertIdx, landing]
  split
  · by_cases hleft : segment.firstGap < segment.firstLarger entry.key
    · rw [makeWay, if_pos hleft, if_pos hleft]
      exact ⟨_, rfl, set_copyWithin_left hleft hle _⟩
    · rw [makeWay, if_neg hleft, if_neg hleft]
      exact ⟨_, rfl, set_copyWithin_right (Nat.le_of_not_lt hleft) hgap _⟩
  · have hlarger : segment.firstLarger entry.key = segment.length := by omega
    rw [makeWay, hlarger, if_pos hgap]
    exact ⟨_, rfl, set_copyWithin_left hgap (Nat.le_refl _) _⟩

/-- The scan and the block moves put the entry where it belongs. -/
theorem insert?_eq_some (h : none ∈ segment) (entry : Entry) :
    segment.insert? entry =
      some (segment.leads entry.key, segment.insert entry) := by
  obtain ⟨moved, hmakeWay, hfilled⟩ := makeWay_firstGap h entry
  simp only [insert?, gap_scan h, Option.bind_eq_bind, Option.bind_some,
    hmakeWay, hfilled, take_landing_insert]
  rfl

-- The first gap is given up, although the second one is nearer.
example : insert? ⟨15, 150⟩ [none, some ⟨10, 100⟩, none, some ⟨20, 200⟩] =
    some (false, [some ⟨10, 100⟩, none, some ⟨15, 150⟩, some ⟨20, 200⟩]) := by
  decide

end Segment

end PackedMemory
