import PackedMemory.Proofs.Cursor
import PackedMemory.Proofs.PackedArray.Lawless

/-!
# Capacities over time

An array starts with the least capacity that its configuration asks for and only
ever doubles it.  At every capacity the slots are cut into segments of about as
many slots as the capacity has binary digits, whatever the index does.
-/

namespace PackedMemory

namespace Storage

structure Tiled (storage : Storage) : Prop where
  length_slots : storage.slots.length = storage.capacity
  capacity_eq : storage.capacity =
    storage.segmentCount * storage.segmentCapacity
  segmentCapacity_least : ∃ exponent, storage.capacity = 2 ^ exponent ∧
    IsLeast (powersFrom exponent) storage.segmentCapacity
  two_le_segmentCount : 2 ≤ storage.segmentCount
  size_leaves : storage.counts.leaves.size = storage.segmentCount
  segmentCount_eq : storage.segmentCount = 2 ^ (storage.height - 1)

theorem Exact.tiled {storage : Storage} (h : storage.Exact) :
    storage.Tiled where
  length_slots := h.length_slots
  capacity_eq := rfl
  segmentCapacity_least := by
    obtain ⟨exponent, -, hcapacity⟩ :=
      (isUsableCapacity_iff _).mp h.shaped.usable
    refine ⟨exponent, hcapacity, ?_⟩
    rw [h.shaped.segmentCapacity_eq, hcapacity, segmentCapacityFor_two_pow]
    exact isLeast_nextPowerOfTwo exponent
  two_le_segmentCount := h.shaped.two_le_segmentCount
  size_leaves := h.size_leaves
  segmentCount_eq := h.counted.segmentCount_eq

end Storage

namespace PackedArray

variable {ρ ι : Type} [Quantity ρ] [OrderIndex ι] {array : PackedArray ρ ι}
  {config : Config ρ}

theorem descends_insert (h : array.storage.Exact) (key : Key) (value : Value) :
    Descends array (insert key value array).state := by
  obtain ⟨result, new, hinsert, hnew, -⟩ := insertingBy h steady key value
  rw [insertBy_steady] at hinsert
  rw [(Prod.mk.inj hinsert).2]
  exact hnew

theorem descends_remove (h : array.storage.Exact) (key : Key) :
    Descends array (remove key array).state := by
  obtain ⟨result, new, hremove, hnew, -⟩ := removingBy h steady key
  rw [removeBy_steady] at hremove
  rw [(Prod.mk.inj hremove).2]
  exact hnew

theorem descends_extend (h : array.storage.Exact) (entries : List Entry) :
    Descends array (extend entries array).state :=
  extend_induction (P := Descends array)
    (fun _ hdescends key value =>
      hdescends.trans (descends_insert hdescends.exact key value))
    (.refl h) entries

theorem Reachable.descends (h : Reachable config array) :
    ∃ capacity, config.validate = .ok capacity ∧
      Descends (blank config.policy capacity) array := by
  apply h.invariant (P := fun array => ∃ capacity,
    config.validate = .ok capacity ∧
      Descends (blank config.policy capacity) array)
  · intro created hcreated
    obtain ⟨capacity, hvalidate, husable, rfl⟩ := exists_of_ofConfig hcreated
    exact ⟨capacity, hvalidate, .refl (Storage.exact_blank husable)⟩
  · rintro old ⟨capacity, hvalidate, hold⟩ key value
    exact ⟨capacity, hvalidate, hold.trans (descends_insert hold.exact key value)⟩
  · rintro old ⟨capacity, hvalidate, hold⟩ key
    exact ⟨capacity, hvalidate, hold.trans (descends_remove hold.exact key)⟩

/-- Which configurations are accepted, and what becomes of their capacities. -/
theorem capacity_over_time (ι : Type) [OrderIndex ι] (config : Config ρ) :
    (∀ capacity, config.validate = .ok capacity ↔
      config.thresholds.validate = .ok () ∧
        max config.initialCapacity leastCapacity ≤ 2 ^ 63 ∧
        IsLeast (powersFrom (max config.initialCapacity leastCapacity))
          capacity ∧
        capacity ≤ config.maxCapacity) ∧
    ∀ array : PackedArray ρ ι, Reachable config array →
      (∃ capacity doublings, config.validate = .ok capacity ∧
        array.capacity = capacity * 2 ^ doublings) ∧
      array.capacity ≤ config.maxCapacity ∧
      array.storage.Tiled ∧
      (∀ key value, array.capacity ≤ (insert key value array).state.capacity) ∧
      (∀ key, array.capacity ≤ (remove key array).state.capacity) ∧
      ∀ entries, array.capacity ≤ (extend entries array).state.capacity := by
  refine ⟨fun capacity => ?_, fun array h => ?_⟩
  · rw [config.validate_eq_ok_iff, normalizeCapacity_eq_ok_iff, and_assoc]
  · obtain ⟨capacity, hvalidate, hdescends⟩ := h.descends
    obtain ⟨-, -, hmaximal⟩ := (config.validate_eq_ok_iff capacity).mp hvalidate
    have hblank : (blank config.policy capacity : PackedArray ρ ι).capacity =
        capacity :=
      Storage.capacity_blank (isUsableCapacity_of_validate hvalidate)
    obtain ⟨doublings, hcapacity⟩ := hdescends.capacity_eq
    have hle := hdescends.capacity_le (hblank.trans_le hmaximal)
    rw [hblank] at hcapacity
    have hexact := hdescends.exact
    exact ⟨⟨capacity, doublings, hvalidate, hcapacity⟩, hle, hexact.tiled,
      fun key value => (descends_insert hexact key value).capacity_mono,
      fun key => (descends_remove hexact key).capacity_mono,
      fun entries => (descends_extend hexact entries).capacity_mono⟩

theorem capacity_of_sixEntries :
    eightSlots.validate = .ok 8 ∧ (sixEntries TreeIndex).capacity ≤ 8 ∧
      (sixEntries TreeIndex).storage.Tiled := by
  obtain ⟨hvalidate, hreachable⟩ := capacity_over_time TreeIndex eightSlots
  obtain ⟨-, hmaximal, htiled, -⟩ := hreachable _ reachable_sixEntries
  refine ⟨(hvalidate 8).mpr ⟨by decide +kernel, by decide, ?_, by decide⟩,
    hmaximal, htiled⟩
  exact isLeast_nextPowerOfTwo 8

end PackedArray

end PackedMemory
