import PackedMemory.Proofs.Leaders
import PackedMemory.Proofs.Storage.History

/-!
# Insertion into a segment

A segment takes an entry by a block move: the slots between its first gap and
the place of the entry move by one, towards the gap.  Which way they move, and
how far, depends on where the first gap and the first larger key stand.
-/

namespace PackedMemory

namespace Segment

variable {segment : Segment} {offset : Nat}

theorem getElem?_landing (h : none ∈ segment) (entry : Entry) :
    (segment.insert entry)[segment.landing entry.key]? = some (some entry) := by
  have hlanding := landing_lt_length h entry.key
  have hgap : segment.firstGap < segment.length := List.idxOf_lt_length_iff.mpr h
  rw [insert_eq_insertIdx, List.getElem?_insertIdx_self, if_pos]
  rw [List.length_eraseIdx_of_lt hgap]
  omega

theorem entries_eraseIdx_landing (entry : Entry) (segment : Segment) :
    entries ((segment.insert entry).eraseIdx (segment.landing entry.key)) =
      segment.entries := by
  rw [insert_eq_insertIdx, List.eraseIdx_insertIdx_self,
    eraseIdx_firstGap, entries_erase_none]

theorem getElem?_insert_of_lt (entry : Entry)
    (hgap : offset < segment.firstGap)
    (hlarger : offset < segment.firstLarger entry.key) :
    (segment.insert entry)[offset]? = segment[offset]? := by
  have hlanding : offset < segment.landing entry.key := by
    rw [landing]
    split <;> omega
  rw [insert_eq_insertIdx, List.getElem?_insertIdx_of_lt hlanding,
    List.getElem?_eraseIdx_of_lt hgap]

theorem getElem?_insert_of_ge (entry : Entry)
    (hgap : segment.firstGap < offset)
    (hlarger : segment.firstLarger entry.key ≤ offset) :
    (segment.insert entry)[offset]? = segment[offset]? := by
  have hlanding : segment.landing entry.key < offset := by
    rw [landing]
    split <;> omega
  rw [insert_eq_insertIdx, List.getElem?_insertIdx_of_gt hlanding,
    List.getElem?_eraseIdx_of_ge (by omega), Nat.sub_add_cancel (by omega)]

theorem leads_iff_findIdx? (entry : Entry) (segment : Segment) :
    segment.leads entry.key = true ↔
      (segment.insert entry).findIdx? Option.isSome =
        some (segment.landing entry.key) := by
  rw [leads, insert, List.findIdx?_append, ← length_takeWhile_erase]
  generalize (segment.erase none).takeWhile (precedes entry.key) = before
  cases hfirst : before.findIdx? Option.isSome with
  | none =>
      refine iff_of_true ?_ (by simp [List.findIdx?_cons])
      rw [List.findIdx?_eq_none_iff] at hfirst
      simpa using hfirst
  | some first =>
      obtain ⟨hlt, hoccupied, -⟩ :=
        List.findIdx?_eq_some_iff_getElem.mp hfirst
      refine iff_of_false ?_ ?_
      · intro hall
        have hgap := List.all_eq_true.mp hall _ (List.getElem_mem hlt)
        rw [Option.isNone_iff_eq_none] at hgap
        simp [hgap] at hoccupied
      · simp only [Option.some_or, Option.some.injEq]
        omega

end Segment

namespace Storage

variable {storage : Storage} {number : Nat} {segment : Segment}

/--
A segment `before` has become `after` by taking an entry; `leads` tells whether
the entry is now its first.
-/
structure OrderedInsertion (entry : Entry) (before after : Segment)
    (leads : Bool) : Prop where
  length_eq : after.length = before.length
  placed : after[before.landing entry.key]? = some (some entry)
  others : Segment.entries (after.eraseIdx (before.landing entry.key)) =
    before.entries
  inserts : Inserts entry before.entries after.entries
  ascending : Ascending Entry.key before.entries →
    (∀ other ∈ before.entries, other.key ≠ entry.key) →
      Ascending Entry.key after.entries
  leads_iff : leads = true ↔
    after.findIdx? Option.isSome = some (before.landing entry.key)
  unchanged_before : ∀ offset < before.firstGap,
    offset < before.firstLarger entry.key → after[offset]? = before[offset]?
  unchanged_behind : ∀ offset > before.firstGap,
    before.firstLarger entry.key ≤ offset → after[offset]? = before[offset]?

theorem orderedInsertion (h : none ∈ segment) (entry : Entry) :
    OrderedInsertion entry segment (segment.insert entry)
      (segment.leads entry.key) where
  length_eq := Segment.length_insert h
  placed := Segment.getElem?_landing h entry
  others := Segment.entries_eraseIdx_landing entry segment
  inserts := Segment.inserts_insert entry segment
  ascending := Segment.ascending_insert
  leads_iff := Segment.leads_iff_findIdx? entry segment
  unchanged_before _ := Segment.getElem?_insert_of_lt entry
  unchanged_behind _ := Segment.getElem?_insert_of_ge entry

theorem Exact.length_lt_of_none_mem (h : storage.Exact)
    (hsegment : storage.segments[number]? = some segment)
    (hgap : none ∈ segment) :
    segment.entries.length < storage.segmentCapacity := by
  rw [← h.length_segment segment (Array.mem_of_getElem? hsegment)]
  have hle := Segment.length_entries_le (segment.erase none)
  have hpositive := List.length_pos_of_mem hgap
  rw [Segment.entries_erase_none, List.length_erase_of_mem hgap] at hle
  omega

/--
A segment with a gap takes every entry in order, wherever its gaps are, and no
other segment changes.
-/
theorem insert_ordered (h : storage.Evolved)
    (hsegment : storage.segments[number]? = some segment)
    (hgap : none ∈ segment) (entry : Entry) :
    ∃ leads after new, storage.insert number entry = (.ok leads, new) ∧
      new.segments[number]? = some after ∧
      OrderedInsertion entry segment after leads ∧
      (∀ other, other ≠ number →
        new.segments[other]? = storage.segments[other]?) ∧
      Inserts entry storage.entries new.entries := by
  have hexact := h.exact
  have hlt := hexact.length_lt_of_none_mem hsegment hgap
  refine ⟨_, segment.insert entry, _, hexact.insert_eq hsegment hlt entry, ?_,
    orderedInsertion hgap entry, ?_, ?_⟩
  · exact Array.getElem?_setIfInBounds_self_of_lt (lt_segmentCount hsegment)
  · intro other hother
    exact Array.getElem?_setIfInBounds_ne hother.symm
  · rw [entries_eq_flatten, entries_eq_flatten, parts_setIfInBounds]
    exact inserts_flatten_set (part_eq hsegment)
      (Segment.inserts_insert entry segment)

theorem insert_mixed_ordered :
    ∃ leads after new, mixed.insert 1 ⟨4, 40⟩ = (.ok leads, new) ∧
      new.segments[1]? = some after ∧
      OrderedInsertion ⟨4, 40⟩ [none, none, some ⟨3, 30⟩, none] after leads ∧
      (∀ other, other ≠ 1 →
        new.segments[other]? = mixed.segments[other]?) ∧
      Inserts ⟨4, 40⟩ mixed.entries new.entries :=
  insert_ordered ⟨4, mixedSteps, by decide, rfl⟩ (by decide +kernel)
    (by decide) ⟨4, 40⟩

end Storage

end PackedMemory
