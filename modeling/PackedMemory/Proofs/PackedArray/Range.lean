import PackedMemory.Proofs.Cursor
import PackedMemory.Proofs.PackedArray.Reachable

/-!
# Ranges of consistent arrays

A search for an end of a range starts at the segment that the index names for
it and passes over gaps, through any number of empty segments.  All that stands
before that segment would have been passed over too, so where the search stops
the keys up to the end are divided from the keys beyond.
-/

namespace PackedMemory

namespace Storage

variable {storage : Storage} {passes : Slot → Bool}

structure Stops (storage : Storage) (passes : Slot → Bool)
    (start limit stop : Nat) : Prop where
  start_le : start ≤ stop
  le_limit : stop ≤ limit
  passed : ∀ position, start ≤ position → position < stop →
    passes (storage.slotAt position) = true
  stopped : stop < limit → passes (storage.slotAt stop) = false

theorem stops_seekWithin (storage : Storage) (passes : Slot → Bool)
    (count position : Nat) :
    storage.Stops passes position (position + count)
      (storage.seekWithin passes count position) := by
  induction count generalizing position with
  | zero =>
      exact ⟨Nat.le_refl _, Nat.le_refl _, fun other hlow hhigh =>
        absurd hhigh (Nat.not_lt.mpr hlow), fun hlt =>
          absurd hlt (Nat.lt_irrefl _)⟩
  | succ count ih =>
      rw [seekWithin]
      cases hpass : passes (storage.slotAt position) with
      | false =>
          rw [if_neg (by simp)]
          exact ⟨Nat.le_refl _, Nat.le_add_right _ _, fun other hlow hhigh =>
            absurd hhigh (Nat.not_lt.mpr hlow), fun _ => hpass⟩
      | true =>
          have hrest := ih (position + 1)
          rw [Nat.add_right_comm, Nat.add_assoc] at hrest
          rw [if_pos rfl]
          refine ⟨Nat.le_of_succ_le hrest.start_le, hrest.le_limit, ?_,
            hrest.stopped⟩
          intro other hlow hhigh
          rcases Nat.eq_or_lt_of_le hlow with rfl | hlow
          · exact hpass
          · exact hrest.passed other hlow hhigh

theorem stops_seek {position : Nat} (h : position ≤ storage.capacity) :
    storage.Stops passes position storage.capacity
      (storage.seek passes position) := by
  have hstops := storage.stops_seekWithin passes (storage.capacity - position)
    position
  rwa [Nat.add_sub_cancel' h] at hstops

structure Divides (storage : Storage) (test : Entry → Bool)
    (start cut : Nat) : Prop where
  start_le : start ≤ cut
  le_capacity : cut ≤ storage.capacity
  iff_lt : ∀ position entry, storage.slotAt position = some entry →
    (test entry = true ↔ position < cut)

/-- From a start without exceptions before it a search finds the division. -/
theorem Exact.divides_seek (h : storage.Exact)
    (hascending : Ascending Entry.key storage.entries)
    {test : Entry → Bool}
    (hdown : ∀ first second : Entry, first.key < second.key →
      test second = true → test first = true)
    {start : Nat} (hstart : start ≤ storage.capacity)
    (hbefore : ∀ position < start, ∀ entry,
      storage.slotAt position = some entry → test entry = true) :
    storage.Divides test start
      (storage.seek (fun slot => slot.all test) start) := by
  have hstops : storage.Stops (fun slot => slot.all test) start
    storage.capacity _ := stops_seek hstart
  refine ⟨hstops.start_le, hstops.le_limit, fun position entry hslot => ?_⟩
  constructor
  · intro htest
    by_contra hge
    have hle := Nat.not_lt.mp hge
    have hfails := hstops.stopped (hle.trans_lt (h.lt_capacity hslot))
    cases hstop : storage.slotAt
        (storage.seek (fun slot => slot.all test) start) with
    | none =>
        rw [hstop] at hfails
        contradiction
    | some other =>
        rw [hstop, Option.all_some] at hfails
        rcases Nat.eq_or_lt_of_le hle with heq | hlt
        · rw [heq, hslot, Option.some.injEq] at hstop
          rw [← hstop, htest] at hfails
          contradiction
        · rw [hdown other entry (h.key_lt_of_lt hascending hstop hslot hlt)
            htest] at hfails
          contradiction
  · intro hlt
    rcases Nat.lt_or_ge position start with hbelow | habove
    · exact hbefore position hbelow entry hslot
    · have hpassed := hstops.passed position habove hlt
      rwa [hslot, Option.all_some] at hpassed

end Storage

def Totals.summary (entries : List Entry) : Totals where
  firstKey := (entries.head?.map Entry.key).getD 0
  lastKey := (entries.getLast?.map Entry.key).getD 0
  count := entries.length
  keySum := Int64.ofInt (entries.map fun entry => entry.key.toInt).sum
  valueSum := Int64.ofInt (entries.map fun entry => entry.value.toInt).sum

theorem Totals.foldl_add (totals : Totals) (entries : List Entry) :
    entries.foldl Totals.add totals =
      { firstKey := totals.firstKey
        lastKey := (entries.getLast?.map Entry.key).getD totals.lastKey
        count := totals.count + entries.length
        keySum := totals.keySum +
          Int64.ofInt (entries.map fun entry => entry.key.toInt).sum
        valueSum := totals.valueSum +
          Int64.ofInt (entries.map fun entry => entry.value.toInt).sum } := by
  induction entries generalizing totals with
  | nil => simp
  | cons entry entries ih =>
      rw [List.foldl_cons, ih]
      simp only [Totals.add, List.getLast?_cons, Option.map_some,
        Option.getD_some, List.length_cons, List.map_cons, List.sum_cons,
        Int64.ofInt_add, Int64.ofInt_toInt, Int64.add_assoc, Option.getD_map,
        Nat.add_assoc, Nat.add_comm 1]

theorem Totals.ofEntries_eq (entries : List Entry) :
    Totals.ofEntries entries = Totals.summary entries := by
  cases entries with
  | nil => rfl
  | cons entry entries =>
      simp only [Totals.ofEntries, Totals.foldl_add, Totals.ofEntry,
        Totals.summary, List.head?_cons, List.getLast?_cons, Option.map_some,
        Option.getD_some, List.length_cons, List.map_cons, List.sum_cons,
        Int64.ofInt_add, Int64.ofInt_toInt, Option.getD_map, Nat.add_comm 1]

namespace PackedArray

variable {ρ ι : Type} [OrderIndex ι] [LawfulIndex ι] {array : PackedArray ρ ι}

/-! ## Intervals -/

/-- What stands before the segment of a key is less than the key. -/
theorem Consistent.key_lt_of_before (h : Consistent array) {key : Key}
    {position : Nat} {entry : Entry}
    (hlt : position < array.predecessor key * array.storage.segmentCapacity)
    (hslot : array.storage.slotAt position = some entry) :
    entry.key < key := by
  have hsegment : position / array.storage.segmentCapacity <
      array.predecessor key := Nat.div_lt_of_lt_mul (by rwa [Nat.mul_comm])
  obtain ⟨segment, hsome⟩ := Storage.exists_segment
    (hsegment.trans (h.predecessor_lt key))
  obtain ⟨hnumber, hpart⟩ := List.getElem?_eq_some_iff.mp
    (Storage.part_eq hsome)
  refine (h.owns_predecessor key).below entry (List.mem_flatten.mpr
    ⟨segment.entries, ?_, ?_⟩)
  · exact List.mem_take_iff_getElem.mpr ⟨_, by omega, hpart⟩
  · rw [Storage.slotAt, Array.getD_eq_getD_getElem?, hsome, Option.getD_some]
      at hslot
    exact Segment.mem_entries_of_getD hslot

theorem Consistent.origin_le_capacity (h : Consistent array) (key : Key) :
    array.predecessor key * array.storage.segmentCapacity ≤
      array.storage.capacity :=
  Nat.mul_le_mul_right _ (h.predecessor_lt key).le

structure Spans (array : PackedArray ρ ι) (least greatest : Key)
    (start stop : Nat) : Prop where
  start_le_stop : start ≤ stop
  stop_le_capacity : stop ≤ array.capacity
  within_iff : ∀ position entry, array.storage.slotAt position = some entry →
    (start ≤ position ∧ position < stop ↔
      least ≤ entry.key ∧ entry.key ≤ greatest)

theorem Consistent.spans_interval (h : Consistent array)
    (least greatest : Key) :
    Spans array least greatest (array.interval least greatest).1
      (array.interval least greatest).2 := by
  have hexact := h.exact
  rw [interval]
  split
  · rename_i hvoid
    refine ⟨Nat.le_refl _, Nat.zero_le _, fun position entry hslot => ?_⟩
    refine iff_of_false (fun hwithin => absurd hwithin.2 (Nat.not_lt_zero _)) ?_
    rintro ⟨hleast, hgreatest⟩
    rw [Bool.or_eq_true, decide_eq_true_iff, h.isEmpty_iff] at hvoid
    rcases hvoid with hcross | hempty
    · exact Int64.lt_irrefl (Int64.lt_of_lt_of_le hcross
        (Int64.le_trans hleast hgreatest))
    · have hmem := hexact.mem_entries_iff.mpr ⟨position, hslot⟩
      rw [hempty] at hmem
      contradiction
  · rename_i hrange
    rw [Bool.or_eq_true, decide_eq_true_iff, not_or, Int64.not_lt] at hrange
    have hless : array.storage.Divides (fun entry => entry.key < least) _ _ :=
      hexact.divides_seek h.ascending
        (fun first second hlt htest => decide_eq_true
          (Int64.lt_trans hlt (of_decide_eq_true htest)))
        (h.origin_le_capacity least)
        fun position hposition entry hslot =>
          decide_eq_true (h.key_lt_of_before hposition hslot)
    have hupto : array.storage.Divides (fun entry => entry.key ≤ greatest) _ _ :=
      hexact.divides_seek h.ascending
        (fun first second hlt htest => decide_eq_true
          (Int64.le_trans (Int64.le_of_lt hlt) (of_decide_eq_true htest)))
        (max_le (h.origin_le_capacity greatest) hless.le_capacity)
        fun position hposition entry hslot => by
          rcases lt_max_iff.mp hposition with hbefore | hbefore
          · exact decide_eq_true
              (Int64.le_of_lt (h.key_lt_of_before hbefore hslot))
          · have hlt := of_decide_eq_true
              ((hless.iff_lt position entry hslot).mpr hbefore)
            exact decide_eq_true
              (Int64.le_of_lt (Int64.lt_of_lt_of_le hlt hrange.1))
    refine ⟨(le_max_right _ _).trans hupto.start_le, hupto.le_capacity, ?_⟩
    intro position entry hslot
    have hleft := hless.iff_lt position entry hslot
    have hright := hupto.iff_lt position entry hslot
    rw [decide_eq_true_iff] at hleft hright
    rw [← Int64.not_lt, hleft, hright, Nat.not_lt]

theorem Spans.mem_entriesIn_iff {least greatest : Key} {start stop : Nat}
    (h : Spans array least greatest start stop) (harray : Consistent array)
    (entry : Entry) :
    entry ∈ array.storage.entriesIn start (stop - start) ↔
      array.find? entry.key = some entry.value ∧
        least ≤ entry.key ∧ entry.key ≤ greatest := by
  rw [harray.find?_eq_some_iff, harray.exact.mem_entries_iff,
    Storage.mem_entriesIn_iff, Nat.add_sub_cancel' h.start_le_stop]
  constructor
  · rintro ⟨position, hlow, hhigh, hslot⟩
    exact ⟨⟨position, hslot⟩,
      (h.within_iff position entry hslot).mp ⟨hlow, hhigh⟩⟩
  · rintro ⟨⟨position, hslot⟩, hbounds⟩
    obtain ⟨hlow, hhigh⟩ := (h.within_iff position entry hslot).mpr hbounds
    exact ⟨position, hlow, hhigh, hslot⟩

omit [LawfulIndex ι] in
theorem Spans.range_eq {least greatest : Key}
    (h : Spans array least greatest (array.interval least greatest).1
      (array.interval least greatest).2) :
    array.range least greatest =
      .ok ⟨array.storage, (array.interval least greatest).1,
        (array.interval least greatest).2⟩ := by
  rw [range]
  exact if_pos h.stop_le_capacity

theorem Consistent.exists_range (h : Consistent array) (least greatest : Key) :
    ∃ cursor, array.range least greatest = .ok cursor ∧
      Ascending Entry.key cursor.entries ∧
      ∀ entry, entry ∈ cursor.entries ↔
        array.find? entry.key = some entry.value ∧
          least ≤ entry.key ∧ entry.key ≤ greatest := by
  have hspans := h.spans_interval least greatest
  exact ⟨_, hspans.range_eq, h.exact.ascending_entriesIn h.ascending _ _,
    hspans.mem_entriesIn_iff h⟩

/-- The entries between two bounds are found, read in order and summed up. -/
theorem range_exact [Quantity ρ] {config : Config ρ}
    (h : Reachable config array) (least greatest : Key) :
    Spans array least greatest (array.interval least greatest).1
        (array.interval least greatest).2 ∧
      ∃ cursor entries, array.range least greatest = .ok cursor ∧
        cursor.Yields entries ∧
        Ascending Entry.key entries ∧
        (∀ entry, entry ∈ entries ↔
          array.find? entry.key = some entry.value ∧
            least ≤ entry.key ∧ entry.key ≤ greatest) ∧
        array.rangeTotals least greatest = .ok (.summary entries) := by
  have harray := h.consistent
  have hspans := harray.spans_interval least greatest
  have hrange := hspans.range_eq
  refine ⟨hspans, _, _, hrange, Cursor.yields_entries _,
    harray.exact.ascending_entriesIn harray.ascending _ _,
    hspans.mem_entriesIn_iff harray, ?_⟩
  rw [rangeTotals, hrange, ← Totals.ofEntries_eq]
  rfl

theorem range_of_sixEntries :
    (∃ cursor entries, (sixEntries SortedIndex).range 2 4 = .ok cursor ∧
      cursor.Yields entries ∧ Ascending Entry.key entries ∧
      (∀ entry, entry ∈ entries ↔
        (sixEntries SortedIndex).find? entry.key = some entry.value ∧
          2 ≤ entry.key ∧ entry.key ≤ 4) ∧
      (sixEntries SortedIndex).rangeTotals 2 4 = .ok (.summary entries)) ∧
    ∃ cursor entries, (sixEntries TreeIndex).range 2 4 = .ok cursor ∧
      cursor.Yields entries ∧ Ascending Entry.key entries ∧
      (∀ entry, entry ∈ entries ↔
        (sixEntries TreeIndex).find? entry.key = some entry.value ∧
          2 ≤ entry.key ∧ entry.key ≤ 4) ∧
      (sixEntries TreeIndex).rangeTotals 2 4 = .ok (.summary entries) :=
  ⟨(range_exact reachable_sixEntries 2 4).2,
    (range_exact reachable_sixEntries 2 4).2⟩

end PackedArray

end PackedMemory
