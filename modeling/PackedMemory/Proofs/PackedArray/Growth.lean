import PackedMemory.Proofs.PackedArray.Limit
import PackedMemory.Proofs.PackedArray.Map
import PackedMemory.Proofs.PackedArray.Withdrawal

/-!
# Growth

With three quarters as the upper bound of the root, and with exact densities,
the number of entries alone decides whether an insertion keeps the capacity,
doubles it or is refused.  The capacity after a run therefore tells the largest
number of entries the array had, and nothing of their keys or their order.
-/

namespace PackedMemory

namespace PackedArray

variable {ι : Type} [OrderIndex ι] [LawfulIndex ι]
  {array new : PackedArray Rat ι}

variable {key : Key} {value : Value} {number : Nat}

omit [LawfulIndex ι] in
theorem RoomFinding.ok_of_fitsAround {result : Except Fault Nat}
    (h : RoomFinding array key result new)
    (hfits : array.FitsAround (array.predecessor key))
    (hexact : array.storage.Exact)
    (hnumber : array.predecessor key < array.storage.segmentCount) :
    ∃ number, result = .ok number := by
  cases h with
  | free => exact ⟨_, rfl⟩
  | cleared => exact ⟨_, rfl⟩
  | refused hrebalancing hfull =>
      obtain ⟨-, hcause, -⟩ := hrebalancing.error_iff.mp rfl
      exact absurd hcause (hfits.needs_no_growth hexact hnumber hfull)

theorem Rebalancing.growth_eq_of_places {segment : Segment} {entry : Entry}
    {room placed : PackedArray Rat ι} {result : Except Fault Unit}
    (h : Rebalancing placed number false result new)
    (hplaces : Places number segment entry room placed)
    (hroom : RoomFinding array key (.ok number) room)
    (harray : Consistent array) (hpoised : array.Poised)
    (hbounds : array.policy.thresholds.ThreeQuarters) :
    (result.map fun _ => new.capacity) =
      array.policy.growth array.capacity (array.size + 1) := by
  have hrearranges := hroom.rearranges harray
  have hpolicy := hplaces.policy_eq.trans hrearranges.policy_eq
  have hsize := size_of_inserts hrearranges.consistent hplaces.consistent
    hplaces.inserts
  have hgrowth := h.growth_eq hplaces.consistent (hpolicy ▸ hbounds)
    hplaces.lt_segmentCount
  rwa [hpolicy, hplaces.capacity_eq, hroom.capacity_eq harray hpoised, hsize,
    hrearranges.size_eq harray] at hgrowth

theorem Insertion.growth_eq {config : Config Rat} {result : Except Fault Bool}
    (h : Insertion array key value result new) (harray : Bounded config array)
    (hpoised : array.Poised)
    (hbounds : array.policy.thresholds.ThreeQuarters)
    (habsent : array.find? key = none) :
    (result.map fun stored => (stored, new.capacity)) =
      (array.policy.growth array.capacity (array.size + 1)).map
        fun capacity => (true, capacity) := by
  have hconsistent := harray.consistent
  have hnumber := hconsistent.predecessor_lt key
  cases h with
  | duplicate hpresent => exact absurd habsent hpresent
  | refused _ hroom =>
      obtain ⟨number, hok⟩ := hroom.ok_of_fitsAround
        (harray.relaxed _ hnumber) hconsistent.exact hnumber
      contradiction
  | stored _ hroom hplaces hrebalancing =>
      rw [← hrebalancing.growth_eq_of_places hplaces hroom hconsistent hpoised
        hbounds]
      rfl
  | withdrawn _ hroom hplaces hrebalancing =>
      rw [← hrebalancing.growth_eq_of_places hplaces hroom hconsistent hpoised
        hbounds]
      rfl

theorem Removal.capacity_eq_of_relaxed {result : Except Fault (Option Value)}
    (h : Removal array key result new) (harray : Consistent array)
    (hbounds : array.policy.thresholds.ThreeQuarters)
    (hrelaxed : array.Relaxed) : new.capacity = array.capacity := by
  cases h with
  | absent => rfl
  | removed htakesOut hrebalancing =>
      have hconsistent := htakesOut.consistent
      rw [← htakesOut.policy_eq] at hbounds
      have hgrowth := hrebalancing.growth_eq hconsistent hbounds
        htakesOut.lt_segmentCount
      have hwithin := (htakesOut.relaxed harray hrelaxed).size_le_loadLimit
        hconsistent.exact hbounds
      rw [Policy.growth, if_pos hwithin, htakesOut.capacity_eq] at hgrowth
      rcases hrebalancing.result_eq with rfl | rfl
      · exact Except.ok.inj hgrowth
      · contradiction

theorem Insertion.capacity_eq_or {config : Config Rat}
    {result : Except Fault Bool} (h : Insertion array key value result new)
    (harray : Bounded config array) (hpoised : array.Poised)
    (hbounds : array.policy.thresholds.ThreeQuarters) :
    new.capacity = array.capacity ∨
      new.capacity = 2 * array.capacity ∧
        loadLimit array.capacity < new.size := by
  have hconsistent := harray.consistent
  obtain ⟨-, -, rfl⟩ | ⟨habsent, rfl, hinserts⟩ |
    ⟨-, ⟨capacity, rfl⟩, -⟩ := h.effect hconsistent
  · exact .inl rfl
  · have hgrowth := h.growth_eq harray hpoised hbounds habsent
    have hsize := size_of_inserts hconsistent (h.consistent hconsistent)
      hinserts
    rw [Policy.growth, ← hsize] at hgrowth
    split at hgrowth
    · exact .inl (Prod.mk.inj (Except.ok.inj hgrowth)).2
    · rename_i hbeyond
      split at hgrowth
      · exact .inr ⟨(Prod.mk.inj (Except.ok.inj hgrowth)).2,
          Nat.not_le.mp hbeyond⟩
      · contradiction
  · exact .inl (h.capacity_eq_of_error hconsistent hpoised).2

omit [LawfulIndex ι] in
theorem Reachable.respond {config : Config Rat} (h : Reachable config array)
    (call : Call) : Reachable config (array.respond call).2 := by
  cases call with
  | insert key value => exact .inserted h key value
  | remove key => exact .removed h key
  | find | contains | size | isEmpty => exact h

theorem Reachable.threeQuarters {config : Config Rat}
    (hroot : config.thresholds.rootUpper = 3 / 4)
    (h : Reachable config array) :
    Bounded config array ∧ array.policy.thresholds.ThreeQuarters := by
  have hbounded := h.bounded (by rw [hroot]; norm_num)
  refine ⟨hbounded, ?_, hbounded.allowHalf.rootUpper_le_leafUpper⟩
  rw [hbounded.policy_eq]
  exact hroot

theorem Reachable.size_le_loadLimit {config : Config Rat}
    (hroot : config.thresholds.rootUpper = 3 / 4)
    (h : Reachable config array) : array.size ≤ loadLimit array.capacity := by
  obtain ⟨hbounded, hbounds⟩ := h.threeQuarters hroot
  exact hbounded.relaxed.size_le_loadLimit hbounded.consistent.exact hbounds

theorem capacity_respond {config : Config Rat}
    (hroot : config.thresholds.rootUpper = 3 / 4)
    (h : Reachable config array) (call : Call) :
    (array.respond call).2.capacity = array.capacity ∨
      (array.respond call).2.capacity = 2 * array.capacity ∧
        loadLimit array.capacity < (array.respond call).2.size := by
  obtain ⟨hbounded, hbounds⟩ := h.threeQuarters hroot
  have hconsistent := hbounded.consistent
  cases call with
  | insert key value =>
      obtain ⟨result, new, hrun, hinsertion⟩ := insertion hconsistent key value
      obtain ⟨rfl, rfl⟩ := Prod.mk.inj hrun
      exact hinsertion.capacity_eq_or hbounded h.poised hbounds
  | remove key =>
      obtain ⟨result, new, hrun, hremoval⟩ := removal hconsistent key
      obtain ⟨rfl, rfl⟩ := Prod.mk.inj hrun
      exact .inl (hremoval.capacity_eq_of_relaxed hconsistent hbounds
        hbounded.relaxed)
  | find | contains | size | isEmpty => exact .inl rfl

/-! ## Runs -/

section Runs

variable {ρ ι : Type} [Quantity ρ] [OrderIndex ι]

def after (array : PackedArray ρ ι) (calls : List Call) : PackedArray ρ ι :=
  calls.foldl (fun array call => (array.respond call).2) array

def peakSize (array : PackedArray ρ ι) : List Call → Nat
  | [] => array.size
  | call :: calls => max array.size ((array.respond call).2.peakSize calls)

theorem size_le_peakSize (array : PackedArray ρ ι) (calls : List Call) :
    array.size ≤ array.peakSize calls := by
  cases calls with
  | nil => exact Nat.le_refl _
  | cons call calls => exact Nat.le_max_left _ _

end Runs

/-- The capacities, doubled from a first one on, that have room for a size. -/
def capacitiesFor (first size : Nat) : Set Nat :=
  {capacity | (∃ doublings, capacity = first * 2 ^ doublings) ∧
    size ≤ loadLimit capacity}

theorem isLeast_capacitiesFor {first size : Nat} (h : size ≤ loadLimit first) :
    IsLeast (capacitiesFor first size) first := by
  refine ⟨⟨⟨0, (Nat.mul_one first).symm⟩, h⟩, ?_⟩
  rintro capacity ⟨⟨doublings, rfl⟩, -⟩
  exact Nat.le_mul_of_pos_right _ (Nat.two_pow_pos doublings)

theorem capacitiesFor_double {first size : Nat} (h : loadLimit first < size) :
    capacitiesFor (2 * first) size = capacitiesFor first size := by
  have hdouble (doublings : Nat) :
      2 * first * 2 ^ doublings = first * 2 ^ (doublings + 1) := by
    rw [Nat.pow_succ']
    ring
  ext capacity
  refine and_congr_left fun hroom => ⟨?_, ?_⟩
  · rintro ⟨doublings, rfl⟩
    exact ⟨doublings + 1, hdouble doublings⟩
  · rintro ⟨doublings, rfl⟩
    cases doublings with
    | zero =>
        rw [Nat.pow_zero, Nat.mul_one] at hroom
        exact absurd hroom (Nat.not_le.mpr h)
    | succ doublings => exact ⟨doublings, (hdouble doublings).symm⟩

theorem capacitiesFor_max {first least size : Nat}
    (h : least ≤ loadLimit first) :
    capacitiesFor first (max least size) = capacitiesFor first size := by
  ext capacity
  refine and_congr_right ?_
  rintro ⟨doublings, rfl⟩
  have hleast := h.trans (loadLimit_mono
    (Nat.le_mul_of_pos_right first (Nat.two_pow_pos doublings)))
  rw [max_le_iff, and_iff_right hleast]

theorem isLeast_after {config : Config Rat}
    (hroot : config.thresholds.rootUpper = 3 / 4)
    (h : Reachable config array) (calls : List Call) :
    IsLeast (capacitiesFor array.capacity (array.peakSize calls))
      (array.after calls).capacity := by
  induction calls generalizing array with
  | nil => exact isLeast_capacitiesFor (h.size_le_loadLimit hroot)
  | cons call calls ih =>
      have hwithin := h.size_le_loadLimit hroot
      have hrest := ih (h.respond call)
      have hpeak := (array.respond call).2.size_le_peakSize calls
      rw [peakSize, capacitiesFor_max hwithin]
      rcases capacity_respond hroot h call with hsame | ⟨hdouble, hbeyond⟩
      · rwa [hsame] at hrest
      · rwa [hdouble, capacitiesFor_double (hbeyond.trans_le hpeak)] at hrest

/--
An insertion keeps the capacity, doubles it or is refused by the number of
entries alone, and after a run the capacity is the least one, doubled from the
first, that has room for the largest number of entries at any time.
-/
theorem capacity_of_sizes {config : Config Rat}
    (hroot : config.thresholds.rootUpper = 3 / 4)
    (h : Reachable config array) :
    (∀ key value, array.find? key = none →
      ((insert key value array).result.map fun stored =>
          (stored, (insert key value array).state.capacity)) =
        (config.policy.growth array.capacity (array.size + 1)).map
          fun capacity => (true, capacity)) ∧
      ∀ calls, IsLeast
        (capacitiesFor array.capacity (array.peakSize calls))
        (array.after calls).capacity := by
  refine ⟨fun key value habsent => ?_, isLeast_after hroot h⟩
  obtain ⟨hbounded, hbounds⟩ := h.threeQuarters hroot
  obtain ⟨result, new, hrun, hinsertion⟩ :=
    insertion hbounded.consistent key value
  obtain ⟨rfl, rfl⟩ := Prod.mk.inj hrun
  rw [← hbounded.policy_eq]
  exact hinsertion.growth_eq hbounded h.poised hbounds habsent

def swelling : List Call :=
  [.insert 2 20, .insert 3 30, .remove 1, .insert 0 0, .remove 3]

theorem capacity_of_swelling :
    ((insert 2 20 (oneEntry SortedIndex)).result.map fun stored =>
        (stored, (insert 2 20 (oneEntry SortedIndex)).state.capacity)) =
      .ok (true, 4) ∧
    IsLeast (capacitiesFor 4 3)
      ((oneEntry SortedIndex).after swelling).capacity ∧
    IsLeast (capacitiesFor 4 3)
      ((oneEntry TreeIndex).after swelling).capacity := by
  have hroot : fourSlots.thresholds.rootUpper = 3 / 4 := by decide +kernel
  obtain ⟨hgrowth, hsorted⟩ :=
    capacity_of_sizes hroot (reachable_oneEntry (ι := SortedIndex))
  obtain ⟨-, htree⟩ :=
    capacity_of_sizes hroot (reachable_oneEntry (ι := TreeIndex))
  have hcapacity : (oneEntry SortedIndex).capacity = 4 ∧
      (oneEntry TreeIndex).capacity = 4 := by decide +kernel
  have hpeak : (oneEntry SortedIndex).peakSize swelling = 3 ∧
      (oneEntry TreeIndex).peakSize swelling = 3 := by decide +kernel
  replace hsorted := hsorted swelling
  replace htree := htree swelling
  rw [hcapacity.1, hpeak.1] at hsorted
  rw [hcapacity.2, hpeak.2] at htree
  exact ⟨(hgrowth 2 20 (by decide +kernel)).trans (by decide +kernel), hsorted,
    htree⟩

end PackedArray

end PackedMemory
