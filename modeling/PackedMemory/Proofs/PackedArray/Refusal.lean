import PackedMemory.Proofs.Cursor
import PackedMemory.Proofs.PackedArray.Reachable

/-!
# Refused removals

A removal takes its entry out first and rebalances afterwards.  Under narrow
bounds a removal can ask for growth, and when that is refused the removal ends
in a fault although its entry is gone.
-/

namespace PackedMemory

namespace PackedArray

variable {ρ ι : Type} [Quantity ρ]

def lighter (array : PackedArray ρ ι) (segment : Nat) : List Reading :=
  (array.readings segment).map fun reading => { reading with
    elements := reading.elements - 1
    overfull := array.gauge.isOverfull reading.level (reading.elements - 1) }

variable [OrderIndex ι]

/--
A stored key without which some window would be overfull still, no spread above
all such windows would do, and growth is not permitted.
-/
structure RefusesRemoval (array : PackedArray ρ ι) (key : Key) : Prop where
  stored : array.find? key ≠ none
  overfull : ∃ reading ∈ array.lighter (array.predecessor key),
    reading.overfull = true
  unsettled : ∀ reading ∈ array.lighter (array.predecessor key),
    array.gauge.isSpreadable reading.level reading.elements = true →
      ∃ other ∈ array.lighter (array.predecessor key),
        other.overfull = true ∧ reading.level ≤ other.level
  refused : ¬array.CanGrow

/-- A removal that ends in a fault leaves the entries and the lookup alone. -/
def RemovesAtomically (array : PackedArray ρ ι) (key : Key) : Prop :=
  ∀ fault, (remove key array).result = .error fault →
    (remove key array).state.cursor.entries = array.cursor.entries ∧
      (remove key array).state.size = array.size ∧
      (remove key array).state.find? key = array.find? key

structure Loses (key : Key) (old new : PackedArray ρ ι) : Prop where
  find?_eq : new.find? key = none
  size_eq : new.size + 1 = old.size
  entries_eq : ∃ before value after,
    old.cursor.entries = before ++ ⟨key, value⟩ :: after ∧
      new.cursor.entries = before ++ after

variable [LawfulIndex ι] {array rest new : PackedArray ρ ι} {key : Key}
  {number offset : Nat} {segment : Segment} {entry : Entry}

theorem TakesOut.readings_eq
    (h : TakesOut number offset segment entry array rest)
    (harray : Consistent array) :
    rest.readings number = array.lighter number := by
  rw [readings, lighter, readings, List.map_map, h.height_eq harray]
  refine List.map_congr_left fun level _ => ?_
  have hoccupied := Storage.occupied_eq_succ h.filled_eq
    (around_start_le number level) (lt_around_end number level)
  rw [Function.comp_apply, readingAt, readingAt, h.gauge_eq harray, hoccupied,
    Nat.add_sub_cancel]

theorem TakesOut.repair_eq_grow_iff
    (h : TakesOut number offset segment entry array rest)
    (harray : Consistent array) :
    rest.repair number (rest.readings number) false = .grow ↔
      (∃ reading ∈ array.lighter number, reading.overfull = true) ∧
        ∀ reading ∈ array.lighter number,
          array.gauge.isSpreadable reading.level reading.elements = true →
            ∃ other ∈ array.lighter number,
              other.overfull = true ∧ reading.level ≤ other.level := by
  have hclimbing := climbing_readings rest number
  rw [h.readings_eq harray] at hclimbing ⊢
  rw [repair, Bool.false_and, h.gauge_eq harray,
    array.gauge.repair_eq_grow_iff hclimbing, or_iff_left Bool.false_ne_true]
  refine and_congr_right fun _ => forall₂_congr fun reading _ => ?_
  rw [← Bool.not_eq_true, array.gauge.settles_iff, not_and]
  push Not
  rfl

theorem Removal.error_iff {result : Except Fault (Option Value)}
    (h : Removal array key result new) (harray : Consistent array)
    {fault : Fault} :
    result = .error fault ↔
      fault = .allocationFailure (2 * array.capacity) ∧
        array.RefusesRemoval key := by
  cases h with
  | absent habsent =>
      constructor
      · intro hresult
        contradiction
      · rintro ⟨-, hrefuses⟩
        exact absurd habsent hrefuses.stored
  | removed htakesOut hrebalancing =>
      rename_i value rest rebalanced
      have hstored : array.find? key ≠ none := by
        rw [htakesOut.find?_eq harray]
        exact Option.some_ne_none _
      have hmap : rebalanced.map (fun _ => some value) = .error fault ↔
          rebalanced = .error fault := by
        cases rebalanced <;> simp [Except.map]
      rw [hmap, hrebalancing.error_iff, htakesOut.isCrammed_eq_false harray,
        or_iff_right Bool.false_ne_true, htakesOut.repair_eq_grow_iff harray,
        htakesOut.capacity_eq, CanGrow, htakesOut.policy_eq,
        htakesOut.capacity_eq]
      constructor
      · rintro ⟨hfault, ⟨hoverfull, hunsettled⟩, hrefused⟩
        exact ⟨hfault, hstored, hoverfull, hunsettled, hrefused⟩
      · rintro ⟨hfault, -, hoverfull, hunsettled, hrefused⟩
        exact ⟨hfault, ⟨hoverfull, hunsettled⟩, hrefused⟩

theorem remove_eq_error_iff (h : Consistent array) (key : Key)
    (fault : Fault) :
    (remove key array).result = .error fault ↔
      fault = .allocationFailure (2 * array.capacity) ∧
        array.RefusesRemoval key := by
  obtain ⟨result, new, hrun, hremoval⟩ := removal h key
  rw [← hremoval.error_iff h]
  exact Eq.congr_left (Prod.mk.inj hrun).1

omit [Quantity ρ] in
theorem loses_of_inserts {value : Value} (harray : Consistent array)
    (hnew : Consistent new)
    (h : Inserts ⟨key, value⟩ new.storage.entries array.storage.entries) :
    Loses key array new := by
  refine ⟨find?_eq_none_of_inserts hnew harray h, ?_, ?_⟩
  · rw [hnew.size_eq, harray.size_eq, h.length_eq]
  · obtain ⟨before, after, hless, hmore⟩ := h
    exact ⟨before, value, after, (entries_cursor harray.exact).trans hmore,
      (entries_cursor hnew.exact).trans hless⟩

theorem RefusesRemoval.loses (h : array.RefusesRemoval key)
    (harray : Consistent array) :
    Loses key array (remove key array).state := by
  obtain ⟨result, new, hrun, hremoval⟩ := removal harray key
  obtain ⟨-, rfl⟩ := Prod.mk.inj hrun
  obtain ⟨habsent, -⟩ | ⟨value, -, hinserts, -⟩ := hremoval.effect harray
  · exact absurd habsent h.stored
  · exact loses_of_inserts harray (hremoval.consistent harray) hinserts

/-- Removals are atomic but for those that are refused growth. -/
theorem removesAtomically_iff {config : Config ρ} (h : Reachable config array)
    (key : Key) :
    (array.RemovesAtomically key ↔ ¬array.RefusesRemoval key) ∧
      (array.RefusesRemoval key →
        (remove key array).result =
            .error (.allocationFailure (2 * array.capacity)) ∧
          Loses key array (remove key array).state) := by
  have hconsistent := h.consistent
  have hresult := remove_eq_error_iff hconsistent key
  refine ⟨⟨?_, ?_⟩, ?_⟩
  · intro hatomic hrefuses
    have hloses := (hrefuses.loses hconsistent).size_eq
    have hsame := (hatomic _ ((hresult _).mpr ⟨rfl, hrefuses⟩)).2.1
    omega
  · intro hpermits fault hfault
    exact absurd ((hresult fault).mp hfault).2 hpermits
  · intro hrefuses
    exact ⟨(hresult _).mpr ⟨rfl, hrefuses⟩, hrefuses.loses hconsistent⟩

/-- Bounds that sixteen slots of one entry exceed, and no more slots allowed. -/
def narrow : Config Rat where
  initialCapacity := leastCapacity
  maxCapacity := 16
  thresholds := ⟨1, 1 / 64, 0, 0⟩

def twoEntries (ι : Type) [OrderIndex ι] : PackedArray Rat ι :=
  (insert 2 20 (insert 1 10 (blank narrow.policy 4)).state).state

theorem reachable_twoEntries {ι : Type} [OrderIndex ι] :
    Reachable narrow (twoEntries ι) := by
  have hcreated : ofConfig narrow =
      .ok (blank narrow.policy 4 : PackedArray Rat ι) :=
    ofConfig_eq (by decide +kernel) (by decide +kernel)
  exact .inserted (.inserted (.created hcreated) 1 10) 2 20

theorem refusesRemoval_twoEntries :
    (twoEntries SortedIndex).RefusesRemoval 1 ∧
      (twoEntries TreeIndex).RefusesRemoval 1 := by
  constructor
  all_goals exact ⟨by decide +kernel, by decide +kernel, by decide +kernel,
    by decide +kernel⟩

theorem loses_of_twoEntries :
    Loses 1 (twoEntries SortedIndex)
        (remove 1 (twoEntries SortedIndex)).state ∧
      Loses 1 (twoEntries TreeIndex) (remove 1 (twoEntries TreeIndex)).state :=
  ⟨((removesAtomically_iff reachable_twoEntries 1).2
      refusesRemoval_twoEntries.1).2,
    ((removesAtomically_iff reachable_twoEntries 1).2
      refusesRemoval_twoEntries.2).2⟩

theorem not_removesAtomically_twoEntries :
    (Reachable narrow (twoEntries SortedIndex) ∧
        ¬(twoEntries SortedIndex).RemovesAtomically 1) ∧
      Reachable narrow (twoEntries TreeIndex) ∧
        ¬(twoEntries TreeIndex).RemovesAtomically 1 := by
  refine ⟨⟨reachable_twoEntries, fun hatomic => ?_⟩, reachable_twoEntries,
    fun hatomic => ?_⟩
  · have hsize := (hatomic (.allocationFailure 32) (by decide +kernel)).2.1
    exact absurd hsize (by decide +kernel)
  · have hsize := (hatomic (.allocationFailure 32) (by decide +kernel)).2.1
    exact absurd hsize (by decide +kernel)

end PackedArray

end PackedMemory
