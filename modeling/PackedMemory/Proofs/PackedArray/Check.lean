import PackedMemory.Proofs.Index.Sorted
import PackedMemory.Proofs.Index.Tree
import PackedMemory.Proofs.PackedArray.Consistent

/-!
# What a check establishes

A check accepts an array, however it has come about, precisely when the counters
of the segments, the total, the order of the keys and the index agree with the
slots.  The counters of larger windows are not looked at, and an array that is
accepted may have any numbers there: every key is found all the same.
-/

namespace PackedMemory

theorem Segment.countP_isSome (segment : Segment) :
    segment.countP Option.isSome = segment.entries.length := by
  rw [entries, List.length_filterMap_eq_countP]
  rfl

namespace Storage

theorem countP_slots (storage : Storage) :
    storage.slots.countP Option.isSome = storage.entries.length := by
  rw [entries_eq_filterMap, List.length_filterMap_eq_countP]
  rfl

theorem some_mem_slots_iff (storage : Storage) (entry : Entry) :
    some entry ∈ storage.slots ↔ entry ∈ storage.entries := by
  rw [entries_eq_filterMap, List.mem_filterMap]
  simp

theorem ascending_entries_iff (storage : Storage) :
    Ascending Entry.key storage.entries ↔
      (storage.slots.filterMap (Option.map Entry.key)).Pairwise (· < ·) := by
  rw [keys_slots, List.pairwise_map]
  rfl

theorem firstKeys_parts (storage : Storage) :
    firstKeys 0 storage.parts =
      storage.segments.toList.zipIdx.filterMap fun (segment, number) =>
        segment.minimum?.map fun key => (key, number) :=
  firstKeys_entries 0 storage.segments.toList

end Storage

namespace PackedArray

variable {ρ ι : Type} [OrderIndex ι] {array : PackedArray ρ ι}

structure Agrees (array : PackedArray ρ ι) : Prop where
  leaf_eq : ∀ number segment, array.storage.segments[number]? = some segment →
    array.storage.counts.leaf number = segment.countP Option.isSome
  total_eq : array.storage.total = array.storage.slots.countP Option.isSome
  keys_lt : (array.storage.slots.filterMap (Option.map Entry.key)).Pairwise
    (· < ·)
  index_eq : OrderIndex.entries array.index =
    array.storage.segments.toList.zipIdx.filterMap fun (segment, number) =>
      segment.minimum?.map fun key => (key, number)

theorem agrees_iff : array.Agrees ↔
    array.storage.Tallied ∧
      array.storage.total = array.storage.entries.length ∧
      Ascending Entry.key array.storage.entries ∧
      OrderIndex.entries array.index =
        Storage.firstKeys 0 array.storage.parts := by
  rw [Storage.ascending_entries_iff, Storage.firstKeys_parts,
    ← Storage.countP_slots]
  constructor
  · intro h
    refine ⟨fun number segment hsegment => ?_, h.total_eq, h.keys_lt,
      h.index_eq⟩
    rw [h.leaf_eq number segment hsegment, Segment.countP_isSome]
  · rintro ⟨htallied, htotal, hkeys, hindex⟩
    refine ⟨fun number segment hsegment => ?_, htotal, hkeys, hindex⟩
    rw [htallied number segment hsegment, Segment.countP_isSome]

/-- A check accepts what agrees with its slots, and then lookups are right. -/
theorem validate_iff_agrees [LawfulIndex ι] (huniform : array.storage.Uniform)
    (hindex : OrderIndex.Built array.index) :
    (array.validate = .ok () ↔ array.Agrees) ∧
      (array.validate = .ok () → ∀ key value,
        array.find? key = some value ↔
          some ⟨key, value⟩ ∈ array.storage.slots) := by
  have haccepts := validate_eq_ok_iff huniform
  refine ⟨haccepts.trans agrees_iff.symm, fun haccepted key value => ?_⟩
  obtain ⟨-, htotal, hascending, hleaders⟩ := haccepts.mp haccepted
  have hindexed : Indexed array := ⟨hascending, hindex.valid, hleaders⟩
  rw [hindexed.find?_eq_some_iff htotal, Storage.some_mem_slots_iff]

/-- Four segments with gaps anywhere, and wrong numbers for the two halves. -/
def handmade (ι : Type) [OrderIndex ι] : PackedArray Rat ι where
  storage := {
    segmentCapacity := 4
    segments := #[
      [none, some ⟨2, 20⟩, none, none],
      [none, none, none, none],
      [some ⟨5, 50⟩, none, some ⟨7, 70⟩, none],
      [none, none, none, none]]
    counts := ⟨#[1, 0, 2, 0], [#[9, 9], #[3]]⟩ }
  index :=
    let reordered := OrderIndex.update (OrderIndex.insert (OrderIndex.insert
      (OrderIndex.empty : ι) 9 2) 2 0) 9 5
    (OrderIndex.removeAny (OrderIndex.insert reordered 8 3) 8).2
  policy := ⟨.default, 16, fun _ => true⟩

theorem built_handmade {ι : Type} [OrderIndex ι] :
    OrderIndex.Built (handmade ι).index :=
  .removed (.inserted (.updated (.inserted (.inserted .empty 9 2) 2 0) 9 5)
    8 3) 8

theorem handmade_agrees :
    ((handmade SortedIndex).Agrees ∧
      (handmade SortedIndex).find? 7 = some 70) ∧
    (handmade TreeIndex).Agrees ∧ (handmade TreeIndex).find? 7 = some 70 := by
  have hsorted : (handmade SortedIndex).validate = .ok () := by decide +kernel
  have htree : (handmade TreeIndex).validate = .ok () := by decide +kernel
  obtain ⟨haccepts, hfinds⟩ := @validate_iff_agrees Rat SortedIndex _
    (handmade SortedIndex) _ (by decide +kernel) built_handmade
  obtain ⟨haccepts', hfinds'⟩ := @validate_iff_agrees Rat TreeIndex _
    (handmade TreeIndex) _ (by decide +kernel) built_handmade
  exact ⟨⟨haccepts.mp hsorted, (hfinds hsorted 7 70).mpr (by decide +kernel)⟩,
    haccepts'.mp htree, (hfinds' htree 7 70).mpr (by decide +kernel)⟩

end PackedArray

end PackedMemory
