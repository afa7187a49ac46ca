import PackedMemory.Proofs.Cursor
import PackedMemory.Proofs.PackedArray.Density
import PackedMemory.Proofs.PackedArray.Room

/-!
# Removals that only empty a slot

Where the bounds allow a half full array no window of a reachable array is
overfull, and one entry less overfills none.  So a removal measures the windows
around its segment and leaves all as it is: one slot has become a gap, and the
index names the next key of the segment, or the segment no more.
-/

namespace PackedMemory

theorem Storage.Exact.slots_setIfInBounds {storage : Storage}
    (h : storage.Exact) {number offset : Nat} {segment : Segment} {slot : Slot}
    (hsegment : storage.segments[number]? = some segment)
    (hslot : segment[offset]? = some slot) (other : Slot) :
    (storage.withSegments (storage.segments.setIfInBounds number
      (segment.set offset other))).slots =
        storage.slots.set (number * storage.segmentCapacity + offset)
          other := by
  have hlength := h.length_segment segment (Array.mem_of_getElem? hsegment)
  obtain ⟨hoffset, -⟩ := List.getElem?_eq_some_iff.mp hslot
  rw [slots, slots, ← flatten_set_of_length
    (fun row hrow => h.length_segment row (Array.mem_toList_iff.mp hrow))
    (by rwa [Array.getElem?_toList]) (hlength ▸ hoffset)]
  exact congrArg List.flatten Array.toList_setIfInBounds

namespace PackedArray

variable {ρ ι : Type} [Quantity ρ] [OrderIndex ι]
  {array new rest : PackedArray ρ ι} {number offset : Nat} {segment : Segment}
  {entry : Entry} {key : Key} {value : Value}

/--
One slot, and nothing else, has become a gap.  When it was the first entry of
its segment, the index has the next one instead, if there is any.
-/
structure Empties (number offset : Nat) (segment : Segment) (entry : Entry)
    (old new : PackedArray ρ ι) : Prop where
  segment_eq : old.storage.segments[number]? = some segment
  slot_eq : segment[offset]? = some (some entry)
  slots_eq : new.storage.slots = old.storage.slots.set
    (number * old.storage.segmentCapacity + offset) none
  segmentCapacity_eq : new.storage.segmentCapacity = old.storage.segmentCapacity
  policy_eq : new.policy = old.policy
  index_eq : segment.minimum? ≠ some entry.key → new.index = old.index
  leaders_eq : segment.minimum? = some entry.key → ∃ before after,
    OrderIndex.entries old.index = before ++ (entry.key, number) :: after ∧
      OrderIndex.entries new.index = before ++
        ((Segment.minimum? (segment.set offset none)).map fun next =>
          (next, number)).toList ++ after

structure OnlyEmpties (key : Key) (array : PackedArray ρ ι)
    (outcome : Outcome (PackedArray ρ ι) (Option Value)) : Prop where
  result_eq : outcome.result = .ok (array.find? key)
  measured : ∀ event ∈ outcome.events, ∃ reading, event = .measured reading
  capacity_eq : outcome.state.capacity = array.capacity
  absent : array.find? key = none → outcome.state = array
  stored : ∀ value, array.find? key = some value → ∃ number offset segment,
    Empties number offset segment ⟨key, value⟩ array outcome.state

theorem FitsAround.rebalance_eq {number : Nat} (h : array.FitsAround number)
    (hexact : array.storage.Exact)
    (hnumber : number < array.storage.segmentCount) :
    rebalance number false array =
      ⟨.ok (), array, (array.readings number).map .measured⟩ := by
  have hcrammed := h.isCrammed_eq_false hexact hnumber
  have hrepair : array.repair number (array.readings number) false = .leave :=
    (array.gauge.repair_eq_leave_iff (climbing_readings array number) _).mpr
      ⟨fitsAround_iff.mp h, rfl⟩
  simp only [rebalance, Update.bind_apply, Update.view_apply, hcrammed,
    Bool.false_eq_true, if_false, Update.ask_apply, measure_eq hexact hnumber,
    Update.emit_apply, hrepair, Update.pure_apply, List.nil_append,
    List.append_nil]

variable [LawfulIndex ι]

omit [Quantity ρ] in
theorem TakesOut.empties
    (h : TakesOut number offset segment entry array rest)
    (harray : Consistent array)
    (hindex : rest.index =
      array.unlearn segment (segment.set offset none) entry.key) :
    Empties number offset segment entry array rest := by
  obtain ⟨index, rfl⟩ := h.exists_index
  refine ⟨h.segment_eq, h.slot_eq,
    harray.exact.slots_setIfInBounds h.segment_eq h.slot_eq none, rfl, rfl,
    ?_, ?_⟩
  · intro hother
    rw [hindex, unlearn, if_neg hother]
  · intro hminimum
    obtain ⟨before, after, hold, hset⟩ :=
      exists_firstKeys_set (Storage.part_eq h.segment_eq)
    refine ⟨before, after, ?_, ?_⟩
    · rw [Segment.minimum?] at hminimum
      rw [harray.index_eq, hold, hminimum, List.append_assoc]
      rfl
    · rw [h.consistent.index_eq, withSegment, Storage.parts_setIfInBounds, hset]
      rfl

theorem onlyEmpties_of_absent (h : Consistent array)
    (habsent : array.find? key = none) :
    OnlyEmpties key array (remove key array) := by
  rw [remove_of_absent h habsent]
  exact {
    result_eq := by rw [habsent]
    measured := fun event hevent => absurd hevent List.not_mem_nil
    capacity_eq := rfl
    absent := fun _ => rfl
    stored := fun value hvalue => by
      rw [habsent] at hvalue
      contradiction }

section Exactly

variable {ι : Type} [OrderIndex ι] [LawfulIndex ι] {array : PackedArray Rat ι}

theorem onlyEmpties_of_stored (h : Consistent array) (hrelaxed : array.Relaxed)
    (hstored : array.find? key = some value) :
    OnlyEmpties key array (remove key array) := by
  obtain ⟨offset, segment, rest, htakesOut, hindex, hremove⟩ :=
    remove_of_stored h hstored
  have hnumber := htakesOut.lt_segmentCount
  -- One entry less keeps all windows within their bounds, so no repair is due.
  have hfits : rest.FitsAround (array.predecessor key) :=
    htakesOut.relaxed h hrelaxed _ hnumber
  have hrebalance := hfits.rebalance_eq htakesOut.consistent.exact hnumber
  simp only [Update.bind_apply, hrebalance, Update.pure_apply,
    List.append_nil] at hremove
  rw [hremove]
  exact {
    result_eq := by rw [hstored]
    measured := fun event hevent => by
      obtain ⟨reading, -, rfl⟩ := List.mem_map.mp hevent
      exact ⟨reading, rfl⟩
    capacity_eq := htakesOut.capacity_eq
    absent := fun habsent => by
      rw [habsent] at hstored
      contradiction
    stored := fun other hother => by
      obtain rfl : value = other :=
        Option.some.inj (hstored.symm.trans hother)
      exact ⟨_, offset, segment, htakesOut.empties h hindex⟩ }

/-- A removal never fails and does no more than to empty a slot. -/
theorem remove_only_empties {config : Config Rat}
    (hroot : 1 / 2 ≤ config.thresholds.rootUpper)
    (h : Reachable config array) (key : Key) :
    OnlyEmpties key array (remove key array) := by
  have hbounded := h.bounded hroot
  cases hfind : array.find? key with
  | none => exact onlyEmpties_of_absent hbounded.consistent hfind
  | some value =>
      exact onlyEmpties_of_stored hbounded.consistent hbounded.relaxed hfind

end Exactly

theorem sixEntries_only_empties :
    1 / 2 ≤ eightSlots.thresholds.rootUpper ∧
      (sixEntries SortedIndex).find? 1 = some 10 ∧
      OnlyEmpties 1 (sixEntries SortedIndex)
        (remove 1 (sixEntries SortedIndex)) ∧
      (sixEntries TreeIndex).find? 1 = some 10 ∧
      OnlyEmpties 1 (sixEntries TreeIndex)
        (remove 1 (sixEntries TreeIndex)) :=
  have hroot : 1 / 2 ≤ eightSlots.thresholds.rootUpper := by decide +kernel
  ⟨hroot, by decide +kernel, remove_only_empties hroot reachable_sixEntries 1,
    by decide +kernel, remove_only_empties hroot reachable_sixEntries 1⟩

end PackedArray

end PackedMemory
