import PackedMemory.PackedArray.Check
import PackedMemory.Proofs.Leaders
import PackedMemory.Proofs.Storage.Exact

/-!
# Consistent arrays

An array is consistent when its counters are exact, its keys ascend from left to
right, and its index has precisely the leaders of its segments.  In a consistent
array the index names the owner of every key, so a lookup finds all that is
stored, and a check finds nothing wrong.  A lookup relies on no counter but the
total, and a check on none but the total and those of single segments.
-/

namespace PackedMemory

open Storage (firstKeys)

namespace Storage

variable {storage : Storage}

def Uniform (storage : Storage) : Prop :=
  ∀ segment ∈ storage.segments, segment.length = storage.segmentCapacity

instance (storage : Storage) : Decidable storage.Uniform :=
  inferInstanceAs (Decidable (∀ segment ∈ storage.segments, _))

theorem miscount?_eq_none_iff (storage : Storage) :
    storage.miscount? = none ↔ storage.Tallied := by
  have hmem (number : Nat) (segment : Segment) :
      (segment, number) ∈ storage.segments.toList.zipIdx ↔
        storage.segments[number]? = some segment := by
    rw [List.mk_mem_zipIdx_iff_getElem?, Array.getElem?_toList]
  rw [miscount?, List.findSome?_eq_none_iff]
  constructor
  · intro h number segment hsegment
    have hnone := h (segment, number) ((hmem number segment).mpr hsegment)
    by_contra hwrong
    simp [Ne.symm hwrong] at hnone
  · rintro h ⟨segment, number⟩ hin
    have hleaf := h number segment ((hmem number segment).mp hin)
    simp only [hleaf, if_true]

theorem Exact.miscount?_eq_none (h : storage.Exact) :
    storage.miscount? = none :=
  storage.miscount?_eq_none_iff.mpr h.tallied

theorem Uniform.length_entries_le (h : storage.Uniform) :
    storage.entries.length ≤ storage.capacity := by
  have hlength (segments : List Segment)
      (hsegments : ∀ segment ∈ segments,
        segment.length = storage.segmentCapacity) :
      (segments.flatMap Segment.entries).length ≤
        segments.length * storage.segmentCapacity := by
    induction segments with
    | nil => simp
    | cons segment segments ih =>
        have hrest := ih fun other hother =>
          hsegments other (List.mem_cons_of_mem _ hother)
        have hfirst := Segment.length_entries_le segment
        have hslots := hsegments segment List.mem_cons_self
        rw [List.flatMap_cons, List.length_append, List.length_cons,
          Nat.succ_mul]
        omega
  exact hlength storage.segments.toList fun segment hsegment =>
    h segment (Array.mem_toList_iff.mp hsegment)

theorem Exact.total_le_capacity (h : storage.Exact) :
    storage.total ≤ storage.capacity := by
  rw [h.total_eq]
  exact Uniform.length_entries_le h.length_segment

theorem isSorted_iff (storage : Storage) :
    storage.isSorted = true ↔ Ascending Entry.key storage.entries := by
  rw [isSorted, isIncreasing_iff]
  exact List.pairwise_map

theorem Exact.leaders_range (h : storage.Exact) :
    storage.leaders (List.range storage.segmentCount) =
      .ok (firstKeys 0 storage.parts) :=
  h.tallied.leaders_range

end Storage

namespace PackedArray

variable {ρ ι : Type} [OrderIndex ι] [LawfulIndex ι]
  {array : PackedArray ρ ι} {key : Key} {value : Value} {number : Nat}
  {segment : Segment}

/-! ## Lookup -/

/-- What a lookup relies on, whatever the counters say. -/
structure Indexed (array : PackedArray ρ ι) : Prop where
  ascending : Ascending Entry.key array.storage.entries
  valid : LawfulIndex.Valid array.index
  index_eq : OrderIndex.entries array.index = firstKeys 0 array.storage.parts

namespace Indexed

theorem ascending_flatten (h : Indexed array) :
    Ascending Entry.key array.storage.parts.flatten := by
  rw [← Storage.entries_eq_flatten]
  exact h.ascending

theorem ascending_entries (h : Indexed array)
    (hsegment : array.storage.segments[number]? = some segment) :
    Ascending Entry.key segment.entries :=
  h.ascending.sublist (Storage.entries_sublist hsegment)

theorem owns_predecessor (h : Indexed array)
    (hcount : 0 < array.storage.segmentCount) (key : Key) :
    Owns array.storage.parts key (array.predecessor key) := by
  have hparts : array.storage.parts ≠ [] := by
    rwa [← List.length_pos_iff, Storage.length_parts]
  rw [predecessor, LawfulIndex.predecessor_eq h.valid, h.index_eq]
  exact owns_floorSegment h.ascending_flatten hparts key

theorem exists_predecessor (h : Indexed array)
    (hcount : 0 < array.storage.segmentCount) (key : Key) :
    ∃ segment, array.storage.segments[array.predecessor key]? =
      some segment := by
  have hlength := (h.owns_predecessor hcount key).lt_length
  rw [Storage.length_parts] at hlength
  exact Storage.exists_segment hlength

/-- Whatever stands anywhere stands in the segment that the index names. -/
theorem mem_entries_iff (h : Indexed array)
    (hsegment : array.storage.segments[array.predecessor key]? =
      some segment) :
    ⟨key, value⟩ ∈ array.storage.entries ↔ ⟨key, value⟩ ∈ segment.entries := by
  have hcount := Nat.zero_lt_of_lt (Storage.lt_segmentCount hsegment)
  constructor
  · intro hmem
    rw [Storage.entries_eq_flatten] at hmem
    exact (h.owns_predecessor hcount key).mem_part (Storage.part_eq hsegment)
      hmem rfl
  · exact fun hmem => (Storage.entries_sublist hsegment).mem hmem

theorem find?_eq_some_iff (h : Indexed array)
    (hsize : array.size = array.storage.entries.length) :
    array.find? key = some value ↔ ⟨key, value⟩ ∈ array.storage.entries := by
  rw [find?, isEmpty, hsize]
  cases hentries : array.storage.entries with
  | nil => simp
  | cons first rest =>
      have hcount : 0 < array.storage.segmentCount := by
        by_contra hnone
        have hsegments : array.storage.segments = #[] :=
          Array.size_eq_zero_iff.mp (Nat.eq_zero_of_not_pos hnone)
        simp [Storage.entries, hsegments] at hentries
      obtain ⟨segment, hsegment⟩ := h.exists_predecessor hcount key
      rw [if_neg (by simp), Storage.segment_eq hsegment, ← hentries,
        h.mem_entries_iff hsegment]
      exact Segment.find?_eq_some_iff (h.ascending_entries hsegment)

end Indexed

omit [LawfulIndex ι] in
/-- A check asks for four things, and for the counters of no larger windows. -/
theorem validate_eq_ok_iff (huniform : array.storage.Uniform) :
    array.validate = .ok () ↔
      array.storage.Tallied ∧
        array.storage.total = array.storage.entries.length ∧
        Ascending Entry.key array.storage.entries ∧
        OrderIndex.entries array.index = firstKeys 0 array.storage.parts := by
  have hfits := huniform.length_entries_le
  rw [← Storage.miscount?_eq_none_iff, ← Storage.isSorted_iff]
  simp only [validate]
  split
  · rename_i hexcess
    refine iff_of_false (fun h => by contradiction) ?_
    rintro ⟨-, htotal, -⟩
    omega
  · cases hmiscount : array.storage.miscount? with
    | some corruption => simp
    | none =>
        have htallied := array.storage.miscount?_eq_none_iff.mp hmiscount
        simp only [htallied.leaders_range, bind, Except.bind, true_and]
        split
        · rename_i htotal
          refine iff_of_false (fun h => by contradiction) ?_
          exact fun h => htotal h.1.symm
        · rename_i htotal
          rw [not_ne_iff] at htotal
          cases array.storage.isSorted <;> simp [htotal]

/-! ## Consistency -/

structure Consistent (array : PackedArray ρ ι) : Prop where
  exact : array.storage.Exact
  ascending : Ascending Entry.key array.storage.entries
  valid : LawfulIndex.Valid array.index
  index_eq : OrderIndex.entries array.index = firstKeys 0 array.storage.parts

namespace Consistent

theorem indexed (h : Consistent array) : Indexed array :=
  ⟨h.ascending, h.valid, h.index_eq⟩

theorem segmentCount_pos (h : Consistent array) :
    0 < array.storage.segmentCount :=
  Nat.zero_lt_of_lt h.exact.shaped.two_le_segmentCount

theorem ascending_flatten (h : Consistent array) :
    Ascending Entry.key array.storage.parts.flatten :=
  h.indexed.ascending_flatten

theorem ascending_entries (h : Consistent array)
    (hsegment : array.storage.segments[number]? = some segment) :
    Ascending Entry.key segment.entries :=
  h.indexed.ascending_entries hsegment

theorem size_eq (h : Consistent array) :
    array.size = array.storage.entries.length := h.exact.total_eq

theorem owns_predecessor (h : Consistent array) (key : Key) :
    Owns array.storage.parts key (array.predecessor key) :=
  h.indexed.owns_predecessor h.segmentCount_pos key

theorem predecessor_lt (h : Consistent array) (key : Key) :
    array.predecessor key < array.storage.segmentCount := by
  rw [← Storage.length_parts]
  exact (h.owns_predecessor key).lt_length

theorem exists_predecessor (h : Consistent array) (key : Key) :
    ∃ segment, array.storage.segments[array.predecessor key]? =
      some segment :=
  h.indexed.exists_predecessor h.segmentCount_pos key

theorem mem_entries_iff (h : Consistent array)
    (hsegment : array.storage.segments[array.predecessor key]? =
      some segment) :
    ⟨key, value⟩ ∈ array.storage.entries ↔ ⟨key, value⟩ ∈ segment.entries :=
  h.indexed.mem_entries_iff hsegment

theorem isEmpty_iff (h : Consistent array) :
    array.isEmpty = true ↔ array.storage.entries = [] := by
  rw [isEmpty, beq_iff_eq, h.size_eq, List.length_eq_zero_iff]

theorem find?_eq_some_iff (h : Consistent array) :
    array.find? key = some value ↔ ⟨key, value⟩ ∈ array.storage.entries :=
  h.indexed.find?_eq_some_iff h.size_eq

theorem find?_congr {other : PackedArray ρ ι} (h : Consistent array)
    (hother : Consistent other)
    (hentries : other.storage.entries = array.storage.entries) (key : Key) :
    other.find? key = array.find? key := by
  apply Option.ext
  intro value
  rw [hother.find?_eq_some_iff, h.find?_eq_some_iff, hentries]

theorem find?_eq_none_iff (h : Consistent array) :
    array.find? key = none ↔
      ∀ entry ∈ array.storage.entries, entry.key ≠ key := by
  rw [← not_iff_not, ← ne_eq, Option.ne_none_iff_exists']
  simp only [h.find?_eq_some_iff]
  push Not
  constructor
  · rintro ⟨value, hmem⟩
    exact ⟨⟨key, value⟩, hmem, rfl⟩
  · rintro ⟨entry, hmem, rfl⟩
    exact ⟨entry.value, hmem⟩

theorem position?_eq_none_iff (h : Consistent array)
    (hsegment : array.storage.segments[array.predecessor key]? =
      some segment) :
    segment.position? key = none ↔ array.find? key = none := by
  rw [Segment.position?_eq_none_iff (h.ascending_entries hsegment),
    h.find?_eq_none_iff]
  constructor
  · rintro habsent entry hentry rfl
    exact habsent entry ((h.mem_entries_iff hsegment).mp hentry) rfl
  · intro habsent entry hentry
    exact habsent entry ((Storage.entries_sublist hsegment).mem hentry)

theorem validate_eq (h : Consistent array) : array.validate = .ok () :=
  (validate_eq_ok_iff h.exact.length_segment).mpr
    ⟨h.exact.tallied, h.exact.total_eq, h.ascending, h.index_eq⟩

end Consistent

/-! ## One entry more or less -/

variable {array new : PackedArray ρ ι}

theorem size_of_inserts {entry : Entry} (hold : Consistent array)
    (hnew : Consistent new)
    (h : Inserts entry array.storage.entries new.storage.entries) :
    new.size = array.size + 1 := by
  rw [hnew.size_eq, h.length_eq, hold.size_eq]

theorem find?_of_inserts {entry : Entry} (hold : Consistent array)
    (hnew : Consistent new)
    (h : Inserts entry array.storage.entries new.storage.entries) (key : Key) :
    new.find? key =
      if key = entry.key then some entry.value else array.find? key := by
  apply Option.ext
  intro value
  rw [hnew.find?_eq_some_iff, h.mem_iff]
  split
  · rename_i hkey
    subst hkey
    rw [Option.some.injEq]
    constructor
    · rintro (heq | hmem)
      · rw [← heq]
      · exact (h.key_ne hnew.ascending hmem rfl).elim
    · rintro rfl
      exact .inl rfl
  · rename_i hkey
    rw [hold.find?_eq_some_iff]
    constructor
    · rintro (heq | hmem)
      · exact absurd (congrArg Entry.key heq) hkey
      · exact hmem
    · exact .inr

theorem find?_eq_none_of_inserts {entry : Entry} (hold : Consistent array)
    (hnew : Consistent new)
    (h : Inserts entry array.storage.entries new.storage.entries) :
    array.find? entry.key = none :=
  hold.find?_eq_none_iff.mpr fun _ hother => h.key_ne hnew.ascending hother

end PackedArray

end PackedMemory
