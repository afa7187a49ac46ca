import PackedMemory.Proofs.Cursor
import PackedMemory.Proofs.PackedArray.Room

/-!
# Refused insertions

An insertion for which the array cannot grow takes its entry out again.  By then
a pair of segments may have been spread to make room, and the entry is removed
as any other would be, with another look at the windows around it.  Yet neither
step can have grown the array, so nothing that it is asked tells that the
insertion was tried.
-/

namespace PackedMemory

namespace PackedArray

variable {ρ ι : Type} [Quantity ρ] [OrderIndex ι] [LawfulIndex ι]
  {array new : PackedArray ρ ι} {key : Key} {value : Value}

theorem Rebalancing.capacity_eq {segment : Nat} {needsGap : Bool}
    {result : Except Fault Unit}
    (h : Rebalancing array segment needsGap result new)
    (harray : Consistent array)
    (hsegment : segment < array.storage.segmentCount)
    (hgrow : ¬array.CanGrow) : new.capacity = array.capacity := by
  cases h with
  | left => rfl
  | spread hcrammed hlow hhigh =>
      exact (sameShape_spreadOut harray hsegment hhigh).capacity_eq
  | grown hcause hcan => exact absurd hcan hgrow
  | refused => rfl

theorem Removal.capacity_eq {result : Except Fault (Option Value)}
    (h : Removal array key result new) (harray : Consistent array)
    (hgrow : ¬array.CanGrow) : new.capacity = array.capacity := by
  cases h with
  | absent => rfl
  | removed htakesOut hrebalancing =>
      rw [← (htakesOut.sameShape harray).canGrow_iff] at hgrow
      rw [hrebalancing.capacity_eq htakesOut.consistent
        htakesOut.lt_segmentCount hgrow, htakesOut.capacity_eq]

theorem Insertion.capacity_eq_of_error {fault : Fault}
    (h : Insertion array key value (.error fault) new)
    (harray : Consistent array) (hpoised : array.Poised) :
    fault = .allocationFailure (2 * array.capacity) ∧
      new.capacity = array.capacity := by
  cases h with
  | refused habsent hroom => exact ⟨hroom.eq_of_error.1, rfl⟩
  | withdrawn habsent hroom hplaces hrebalancing hremoval =>
      have hcapacity := hplaces.capacity_eq.trans
        (hroom.capacity_eq harray hpoised)
      obtain ⟨hfault, -, hgrow⟩ := hrebalancing.error_iff.mp rfl
      rw [hremoval.capacity_eq hplaces.consistent hgrow, hcapacity]
      rw [hcapacity] at hfault
      exact ⟨hfault, rfl⟩

/-- Two arrays that cannot be told apart by what they are asked. -/
structure Alike (old new : PackedArray ρ ι) : Prop where
  entries_eq : new.cursor.entries = old.cursor.entries
  size_eq : new.size = old.size
  capacity_eq : new.capacity = old.capacity
  find?_eq : ∀ key, new.find? key = old.find? key
  validate_eq : new.validate = .ok ()

omit [Quantity ρ] in
theorem Consistent.alike (harray : Consistent array) (hnew : Consistent new)
    (hentries : new.storage.entries = array.storage.entries)
    (hcapacity : new.capacity = array.capacity) : Alike array new where
  entries_eq := by
    rw [entries_cursor hnew.exact, entries_cursor harray.exact, hentries]
  size_eq := by rw [hnew.size_eq, harray.size_eq, hentries]
  capacity_eq := hcapacity
  find?_eq := harray.find?_congr hnew hentries
  validate_eq := hnew.validate_eq

/-- An insertion that ends in a fault is refused growth and leaves no trace. -/
theorem insert_fault_leaves_no_trace {config : Config ρ}
    (h : Reachable config array) (key : Key) (value : Value) {fault : Fault}
    (hfault : (insert key value array).result = .error fault) :
    fault = .allocationFailure (2 * array.capacity) ∧
      Alike array (insert key value array).state := by
  have harray := h.consistent
  obtain ⟨result, new, hrun, hinsertion⟩ := insertion harray key value
  obtain ⟨rfl, rfl⟩ := Prod.mk.inj hrun
  rw [hfault] at hinsertion
  obtain ⟨hcause, hcapacity⟩ :=
    hinsertion.capacity_eq_of_error harray h.poised
  obtain ⟨-, hok, -⟩ | ⟨-, hok, -⟩ | ⟨-, -, hentries⟩ :=
    hinsertion.effect harray
  · contradiction
  · contradiction
  · exact ⟨hcause, harray.alike (hinsertion.consistent harray) hentries
      hcapacity⟩

theorem seventh_leaves_no_trace :
    ((insert 7 70 (sixEntries SortedIndex)).result =
        .error (.allocationFailure 16) ∧
      Alike (sixEntries SortedIndex)
        (insert 7 70 (sixEntries SortedIndex)).state) ∧
    (insert 7 70 (sixEntries TreeIndex)).result =
        .error (.allocationFailure 16) ∧
      Alike (sixEntries TreeIndex)
        (insert 7 70 (sixEntries TreeIndex)).state :=
  have hsorted : (insert 7 70 (sixEntries SortedIndex)).result =
      .error (.allocationFailure 16) := by decide +kernel
  have htree : (insert 7 70 (sixEntries TreeIndex)).result =
      .error (.allocationFailure 16) := by decide +kernel
  ⟨⟨hsorted,
      (insert_fault_leaves_no_trace reachable_sixEntries 7 70 hsorted).2⟩,
    htree, (insert_fault_leaves_no_trace reachable_sixEntries 7 70 htree).2⟩

end PackedArray

end PackedMemory
