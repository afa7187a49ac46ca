import PackedMemory.Proofs.Geometry
import PackedMemory.Proofs.Index.Sorted
import PackedMemory.Proofs.Index.Tree
import PackedMemory.Proofs.PackedArray.Change

/-!
# Reachable arrays

The arrays that a history of insertions, removals and extensions can lead to,
whether the single steps succeed or end in faults.  All of them are consistent.
-/

namespace PackedMemory

namespace PackedArray

variable {ρ ι : Type} [Quantity ρ] [OrderIndex ι]

inductive Reachable (config : Config ρ) : PackedArray ρ ι → Prop
  | created {array : PackedArray ρ ι} (h : ofConfig config = .ok array) :
      Reachable config array
  | inserted {array : PackedArray ρ ι} (h : Reachable config array)
      (key : Key) (value : Value) :
      Reachable config (insert key value array).state
  | removed {array : PackedArray ρ ι} (h : Reachable config array)
      (key : Key) : Reachable config (remove key array).state
  | extended {array : PackedArray ρ ι} (h : Reachable config array)
      (entries : List Entry) : Reachable config (extend entries array).state

def blank (policy : Policy ρ) (capacity : Nat) : PackedArray ρ ι where
  storage := .blank capacity
  index := OrderIndex.empty
  policy := policy

variable {array next : PackedArray ρ ι} {config : Config ρ}

theorem exists_of_ofConfig (h : ofConfig config = .ok array) :
    ∃ capacity, config.validate = .ok capacity ∧
      isUsableCapacity capacity = true ∧
        array = blank config.policy capacity := by
  simp only [ofConfig, bind, Except.bind, Storage.allocate] at h
  cases hvalidate : config.validate with
  | error fault => simp [hvalidate] at h
  | ok capacity =>
      have husable := isUsableCapacity_of_validate hvalidate
      refine ⟨capacity, rfl, husable, ?_⟩
      simp only [hvalidate, husable, Bool.not_true, Bool.false_eq_true,
        if_false] at h
      split at h
      · contradiction
      · rename_i storage hstorage
        split at hstorage
        · cases hstorage
          exact (Except.ok.inj h).symm
        · contradiction

theorem ofConfig_eq {capacity : Nat} (hvalidate : config.validate = .ok capacity)
    (hgrants : config.policy.grants capacity = true) :
    ofConfig config =
      .ok (blank config.policy capacity : PackedArray ρ ι) := by
  simp only [ofConfig, hvalidate, bind, Except.bind, Storage.allocate,
    isUsableCapacity_of_validate hvalidate, hgrants]
  rfl

theorem run_extend_cons_of_ok {entry : Entry} (rest : List Entry) {stored : Bool}
    (h : Update.run (insert entry.key entry.value) array =
      (.ok stored, next)) :
    Update.run (extend (entry :: rest)) array =
      Update.run (extend rest) next := by
  simp only [extend, Update.run_bind, Update.run_onFault, h]

theorem run_extend_cons_of_error {entry : Entry} (rest : List Entry)
    {fault : Fault}
    (h : Update.run (insert entry.key entry.value) array =
      (.error fault, next)) :
    Update.run (extend (entry :: rest)) array =
      (.error (.cannotExtend fault), next) := by
  simp only [extend, Update.run_bind, Update.run_onFault, h, Update.run_fail]

theorem extend_induction {P : PackedArray ρ ι → Prop}
    (hinsert : ∀ array, P array → ∀ key value, P (insert key value array).state)
    (h : P array) (entries : List Entry) : P (extend entries array).state := by
  induction entries generalizing array with
  | nil => exact h
  | cons entry entries ih =>
      have hfirst := hinsert array h entry.key entry.value
      rcases hrun : Update.run (insert entry.key entry.value) array with
        ⟨fault | stored, next⟩
      · have hextend := run_extend_cons_of_error entries hrun
        rw [(Prod.mk.inj hextend).2, ← (Prod.mk.inj hrun).2]
        exact hfirst
      · have hextend := run_extend_cons_of_ok entries hrun
        rw [(Prod.mk.inj hextend).2]
        rw [(Prod.mk.inj hrun).2] at hfirst
        exact ih hfirst

/-- What holds at first and is kept by every call holds ever after. -/
theorem Reachable.invariant {P : PackedArray ρ ι → Prop}
    (hcreate : ∀ array, ofConfig config = .ok array → P array)
    (hinsert : ∀ array, P array → ∀ key value, P (insert key value array).state)
    (hremove : ∀ array, P array → ∀ key, P (remove key array).state)
    (h : Reachable config array) : P array := by
  induction h with
  | created h => exact hcreate _ h
  | inserted _ key value ih => exact hinsert _ ih key value
  | removed _ key ih => exact hremove _ ih key
  | extended _ entries ih => exact extend_induction hinsert ih entries

theorem Reachable.exists_validate (h : Reachable config array) :
    ∃ capacity, config.validate = .ok capacity := by
  induction h with
  | created hcreate =>
      obtain ⟨capacity, hvalidate, -⟩ := exists_of_ofConfig hcreate
      exact ⟨capacity, hvalidate⟩
  | inserted _ _ _ ih => exact ih
  | removed _ _ ih => exact ih
  | extended _ _ ih => exact ih

variable [LawfulIndex ι]

theorem consistent_of_ofConfig (h : ofConfig config = .ok array) :
    Consistent array := by
  obtain ⟨capacity, -, husable, rfl⟩ := exists_of_ofConfig h
  refine ⟨Storage.exact_blank husable, ?_, LawfulIndex.valid_empty, ?_⟩
  · rw [blank, Storage.entries_blank]
    exact List.Pairwise.nil
  · rw [blank, Storage.parts_blank, firstKeys_replicate_nil]
    exact LawfulIndex.entries_empty

theorem consistent_insert (h : Consistent array) (key : Key) (value : Value) :
    Consistent (insert key value array).state := by
  obtain ⟨result, new, hrun, hinsertion⟩ := insertion h key value
  rw [(Prod.mk.inj hrun).2]
  exact hinsertion.consistent h

theorem consistent_extend (h : Consistent array) (entries : List Entry) :
    Consistent (extend entries array).state :=
  extend_induction (fun _ => consistent_insert) h entries

theorem consistent_remove (h : Consistent array) (key : Key) :
    Consistent (remove key array).state := by
  obtain ⟨result, new, hrun, hremoval⟩ := removal h key
  rw [(Prod.mk.inj hrun).2]
  exact hremoval.consistent h

theorem Reachable.consistent (h : Reachable config array) :
    Consistent array :=
  h.invariant (fun _ => consistent_of_ofConfig) (fun _ => consistent_insert)
    fun _ => consistent_remove

theorem Reachable.invariant_of_steps {P : PackedArray ρ ι → Prop}
    (hcreate : ∀ array, ofConfig config = .ok array → P array)
    (hinsertion : ∀ {array new : PackedArray ρ ι} {key : Key} {value : Value}
      {result : Except Fault Bool}, Consistent array → P array →
        Insertion array key value result new → P new)
    (hremoval : ∀ {array new : PackedArray ρ ι} {key : Key}
      {result : Except Fault (Option Value)}, Consistent array → P array →
        Removal array key result new → P new)
    (h : Reachable config array) : P array := by
  refine (h.invariant (P := fun array => Consistent array ∧ P array)
    ?_ ?_ ?_).2
  · exact fun array hcreated =>
      ⟨consistent_of_ofConfig hcreated, hcreate array hcreated⟩
  · rintro array ⟨harray, hP⟩ key value
    obtain ⟨result, new, hrun, hinserted⟩ := insertion harray key value
    rw [(Prod.mk.inj hrun).2]
    exact ⟨hinserted.consistent harray, hinsertion harray hP hinserted⟩
  · rintro array ⟨harray, hP⟩ key
    obtain ⟨result, new, hrun, hremoved⟩ := removal harray key
    rw [(Prod.mk.inj hrun).2]
    exact ⟨hremoved.consistent harray, hremoval harray hP hremoved⟩

def fourSlots : Config Rat := { initialCapacity := leastCapacity }

theorem created_fourSlots {ι : Type} [OrderIndex ι] :
    ofConfig fourSlots = .ok (blank fourSlots.policy 4 : PackedArray Rat ι) :=
  ofConfig_eq (by decide +kernel) (by decide +kernel)

def oneEntry (ι : Type) [OrderIndex ι] : PackedArray Rat ι :=
  (insert 1 10 (blank fourSlots.policy 4)).state

theorem reachable_oneEntry {ι : Type} [OrderIndex ι] :
    Reachable fourSlots (oneEntry ι) :=
  .inserted (.created created_fourSlots) 1 10

def eightSlots : Config Rat where
  initialCapacity := 8
  maxCapacity := 8

/-- As many entries as eight slots may hold. -/
def sixEntries (ι : Type) [OrderIndex ι] : PackedArray Rat ι :=
  (extend [⟨1, 10⟩, ⟨2, 20⟩, ⟨3, 30⟩, ⟨4, 40⟩, ⟨5, 50⟩, ⟨6, 60⟩]
    (blank eightSlots.policy 8)).state

theorem reachable_sixEntries {ι : Type} [OrderIndex ι] :
    Reachable eightSlots (sixEntries ι) :=
  .extended (.created (ofConfig_eq (by decide +kernel) (by decide +kernel))) _

/-! ## The representation -/

/-- Counters, keys and index of a reachable array agree with its slots. -/
theorem reachable_representation (h : Reachable config array) :
    array.validate = .ok () ∧
      (∀ number segment, array.storage.segments[number]? = some segment →
        array.storage.counts.leaf number = segment.countP Option.isSome) ∧
      array.storage.total = array.storage.counts.leaves.toList.sum ∧
      (array.storage.slots.filterMap (Option.map Entry.key)).Pairwise (· < ·) ∧
      OrderIndex.entries array.index =
        array.storage.segments.toList.zipIdx.filterMap
          fun (segment, number) =>
            segment.minimum?.map fun key => (key, number) := by
  have hconsistent := h.consistent
  obtain ⟨depth, hsize, -⟩ := hconsistent.exact.size_held
  refine ⟨hconsistent.validate_eq, ?_, ?_, ?_, ?_⟩
  · intro number segment hsegment
    rw [hconsistent.exact.leaf_eq hsegment, Segment.entries,
      List.length_filterMap_eq_countP]
    rfl
  · rw [Storage.total, hconsistent.exact.counts_eq,
      CountTree.total_ofCounts hsize, CountTree.leaves_ofCounts]
  · rw [Storage.keys_slots]
    exact List.pairwise_map.mpr hconsistent.ascending
  · rw [hconsistent.index_eq, Storage.parts, firstKeys_eq_filterMap,
      List.zipIdx_map, List.filterMap_map]
    rfl

theorem representation_of_sixEntries :
    ((sixEntries SortedIndex).validate = .ok () ∧
      (∀ number segment,
        (sixEntries SortedIndex).storage.segments[number]? = some segment →
        (sixEntries SortedIndex).storage.counts.leaf number =
          segment.countP Option.isSome) ∧
      (sixEntries SortedIndex).storage.total =
        (sixEntries SortedIndex).storage.counts.leaves.toList.sum ∧
      ((sixEntries SortedIndex).storage.slots.filterMap
        (Option.map Entry.key)).Pairwise (· < ·) ∧
      OrderIndex.entries (sixEntries SortedIndex).index =
        [((1 : Key), 0), ((3 : Key), 1)]) ∧
    (sixEntries TreeIndex).validate = .ok () ∧
      (∀ number segment,
        (sixEntries TreeIndex).storage.segments[number]? = some segment →
        (sixEntries TreeIndex).storage.counts.leaf number =
          segment.countP Option.isSome) ∧
      (sixEntries TreeIndex).storage.total =
        (sixEntries TreeIndex).storage.counts.leaves.toList.sum ∧
      ((sixEntries TreeIndex).storage.slots.filterMap
        (Option.map Entry.key)).Pairwise (· < ·) ∧
      OrderIndex.entries (sixEntries TreeIndex).index =
        [((1 : Key), 0), ((3 : Key), 1)] := by
  obtain ⟨hvalid, hleaf, htotal, hkeys, hindex⟩ :=
    reachable_representation (reachable_sixEntries (ι := SortedIndex))
  obtain ⟨hvalid', hleaf', htotal', hkeys', hindex'⟩ :=
    reachable_representation (reachable_sixEntries (ι := TreeIndex))
  exact ⟨⟨hvalid, hleaf, htotal, hkeys, hindex.trans (by decide +kernel)⟩,
    hvalid', hleaf', htotal', hkeys', hindex'.trans (by decide +kernel)⟩

end PackedArray

end PackedMemory
