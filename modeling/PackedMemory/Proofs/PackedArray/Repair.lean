import PackedMemory.PackedArray.Rebalance
import PackedMemory.Proofs.PackedArray.Consistent
import PackedMemory.Proofs.Storage.Occupancy

/-!
# Repairs

A spread always succeeds, growth fails only for want of storage and then changes
nothing, and both keep the entries.  For this an array need only be exact; from
a consistent array both make a consistent one.
-/

namespace PackedMemory

open Storage (firstKeys)

def Policy.Permits {ρ : Type} (policy : Policy ρ) (capacity : Nat) : Prop :=
  capacity ≤ policy.maxCapacity ∧ policy.grants capacity = true

instance {ρ : Type} (policy : Policy ρ) (capacity : Nat) :
    Decidable (policy.Permits capacity) :=
  inferInstanceAs (Decidable (_ ∧ _))

theorem reserve_of_permits {ρ : Type} {policy : Policy ρ} {capacity : Nat}
    (husable : isUsableCapacity capacity = true)
    (h : policy.Permits capacity) :
    policy.reserve capacity = .ok (.blank capacity) := by
  rw [Policy.reserve, if_pos h.1, Storage.allocate, husable, h.2]
  rfl

theorem reserve_of_not_permits {ρ : Type} {policy : Policy ρ} {capacity : Nat}
    (husable : isUsableCapacity capacity = true)
    (h : ¬policy.Permits capacity) :
    policy.reserve capacity = .error (.allocationFailure capacity) := by
  rw [Policy.reserve]
  split
  · rename_i hmaximal
    have hgrants : policy.grants capacity = false :=
      Bool.eq_false_iff.mpr fun hgrants => h ⟨hmaximal, hgrants⟩
    rw [Storage.allocate, husable, hgrants]
    rfl
  · rfl

theorem eq_blank_of_reserve {ρ : Type} {policy : Policy ρ} {capacity : Nat}
    {storage : Storage} (husable : isUsableCapacity capacity = true)
    (h : policy.reserve capacity = .ok storage) : storage = .blank capacity := by
  by_cases hpermits : policy.Permits capacity
  · rw [reserve_of_permits husable hpermits] at h
    exact (Except.ok.inj h).symm
  · rw [reserve_of_not_permits husable hpermits] at h
    contradiction

namespace PackedArray

variable {ρ ι : Type} [OrderIndex ι] {array : PackedArray ρ ι}
  {window : Window}

/-! ## Arrays after a repair -/

def spreadOut (array : PackedArray ρ ι) (window : Window) : PackedArray ρ ι :=
  let parts := array.storage.partsOf window
  let dealt := deal (shares parts.flatten.length window.length) parts.flatten
  { array with
    storage := array.storage.dealOut window parts.flatten
    index := OrderIndex.insertAll
      (OrderIndex.removeAll array.index
        ((firstKeys window.start parts).map Prod.fst))
      (firstKeys window.start dealt) }

theorem parts_spreadOut
    (hwindow : window.start + window.length ≤ array.storage.segmentCount) :
    (array.spreadOut window).storage.parts =
      array.storage.parts.take window.start ++
        deal (shares (array.storage.occupied window) window.length)
          (array.storage.partsOf window).flatten ++
          array.storage.parts.drop (window.start + window.length) :=
  Storage.parts_dealOut hwindow _

theorem getElem?_spreadOut (array : PackedArray ρ ι) {number : Nat}
    (h : number ∉ window.segments) :
    (array.spreadOut window).storage.segments[number]? =
      array.storage.segments[number]? := by
  rw [Window.notMem_segments] at h
  have hdealt := array.storage.length_dealt window
    (array.storage.partsOf window).flatten
  change (overwrite array.storage.segments window.start _)[number]? = _
  rw [getElem?_overwrite, if_neg (by omega)]

theorem length_mem_shares {number : Nat} {part : List Entry}
    (hlength : 0 < window.length)
    (hwindow : window.start + window.length ≤ array.storage.segmentCount)
    (hlow : window.start ≤ number)
    (hhigh : number < window.start + window.length)
    (hpart : (array.spreadOut window).storage.parts[number]? = some part) :
    part.length ∈ shares (array.storage.occupied window) window.length := by
  have hstart : (array.storage.parts.take window.start).length =
      window.start := by
    rw [List.length_take, Storage.length_parts]
    omega
  rw [parts_spreadOut hwindow, List.append_assoc,
    List.getElem?_append_right (by omega),
    List.getElem?_append_left (by simp; omega)] at hpart
  rw [Storage.occupied, ← Storage.map_length_deal_shares hlength]
  exact List.mem_map_of_mem (List.mem_of_getElem? hpart)

def CanGrow (array : PackedArray ρ ι) : Prop :=
  array.policy.Permits (2 * array.capacity)

instance {ρ ι : Type} (array : PackedArray ρ ι) : Decidable array.CanGrow :=
  inferInstanceAs (Decidable (array.policy.Permits _))

def grownUp (array : PackedArray ρ ι) : PackedArray ρ ι :=
  let blank := Storage.blank (2 * array.capacity)
  let entries := array.storage.entries
  { array with
    storage := blank.dealOut blank.whole entries
    index := OrderIndex.insertAll (OrderIndex.clear array.index)
      (firstKeys 0 (deal (shares entries.length blank.segmentCount) entries)) }

theorem parts_grownUp (array : PackedArray ρ ι) :
    array.grownUp.storage.parts =
      deal (shares array.storage.entries.length
        (Storage.blank (2 * array.capacity)).segmentCount)
          array.storage.entries := by
  rw [grownUp, Storage.parts_dealOut (Nat.zero_add _).le]
  simp [Storage.whole]

theorem exact_spreadOut (h : array.storage.Exact) (hlength : 0 < window.length) :
    (array.spreadOut window).storage.Exact :=
  h.exact_dealOut hlength (h.occupied_le window)

theorem entries_spreadOut (hlength : 0 < window.length)
    (hwindow : window.start + window.length ≤ array.storage.segmentCount) :
    (array.spreadOut window).storage.entries = array.storage.entries :=
  Storage.entries_dealOut_partsOf hlength hwindow

theorem segmentCount_spreadOut (array : PackedArray ρ ι) (window : Window) :
    (array.spreadOut window).storage.segmentCount =
      array.storage.segmentCount := size_overwrite _ _ _

theorem capacity_spreadOut (array : PackedArray ρ ι) (window : Window) :
    (array.spreadOut window).capacity = array.capacity :=
  congrArg (· * array.storage.segmentCapacity)
    (array.segmentCount_spreadOut window)

theorem spread_of_steps {leaders filled : List Leader} {entries : List Entry}
    {drained new : Storage}
    (hleaders : array.storage.leaders window.segments = .ok leaders)
    (hdrain : array.storage.drain window = (.ok entries, drained))
    (hfill : drained.fill window entries = (.ok filled, new)) :
    spread window array =
      ⟨.ok (), { array with
        storage := new
        index := OrderIndex.insertAll
          (OrderIndex.removeAll array.index (leaders.map Prod.fst)) filled },
        [.spreading window entries.length]⟩ := by
  simp only [spread, Update.bind_apply, Update.ask_apply, hleaders, onIndex,
    Update.modify_apply, onStorage, hdrain, Update.emit_apply, hfill]
  rfl

theorem spread_eq (h : array.storage.Exact) (hlength : 0 < window.length)
    (hwindow : window.start + window.length ≤ array.storage.segmentCount) :
    spread window array = ⟨.ok (), array.spreadOut window,
      [.spreading window (array.storage.occupied window)]⟩ := by
  have hdrain := h.drain_eq hlength hwindow
  have hfill := h.fill_drain hlength hwindow (h.occupied_le window)
  rw [hdrain] at hfill
  exact spread_of_steps (h.leaders_range' hwindow) hdrain hfill

omit [OrderIndex ι] in
theorem usable_double (h : array.storage.Exact) :
    isUsableCapacity (2 * array.capacity) = true :=
  isUsableCapacity_double h.shaped.usable

theorem grow_of_not_canGrow
    (husable : isUsableCapacity (2 * array.capacity) = true)
    (hgrow : ¬array.CanGrow) :
    grow array =
      ⟨.error (.allocationFailure (2 * array.capacity)), array, []⟩ := by
  have hreserve := reserve_of_not_permits husable hgrow
  simp only [grow, Update.bind_apply, Update.view_apply, Update.ask_apply,
    hreserve, List.append_nil]

omit [OrderIndex ι] in
theorem length_entries_le_blank (h : array.storage.Exact) :
    array.storage.entries.length ≤
      (Storage.blank (2 * array.capacity)).capacity := by
  have htotal := h.total_le_capacity
  rw [Storage.capacity_blank (usable_double h),
    ← h.total_eq, capacity]
  omega

/-- Growth looks at no counter of the storage that it replaces. -/
theorem grow_of_canGrow
    (husable : isUsableCapacity (2 * array.capacity) = true)
    (hfit : array.storage.entries.length ≤
      (Storage.blank (2 * array.capacity)).capacity)
    (hgrow : array.CanGrow) :
    ∃ events, grow array = ⟨.ok (), array.grownUp, events⟩ := by
  have hblank := Storage.exact_blank husable
  have hreserve := reserve_of_permits husable hgrow
  have hfill := hblank.fill_eq hblank.length_whole_pos (Nat.zero_add _).le
    (Storage.occupied_blank _ _) hfit
  rw [Storage.whole] at hfill
  simp only [grow, Update.bind_apply, Update.view_apply, Update.ask_apply,
    hreserve, onIndex, Update.modify_apply, Update.emit_apply, hfill]
  exact ⟨_, rfl⟩

theorem capacity_grownUp (h : array.storage.Exact) :
    array.grownUp.capacity = 2 * array.capacity := by
  rw [← Storage.capacity_blank (usable_double h)]
  exact congrArg (· * (Storage.blank (2 * array.capacity)).segmentCapacity)
    (size_overwrite _ _ _)

theorem length_part_grownUp (h : array.storage.Exact) {part : List Entry}
    (hpart : part ∈ array.grownUp.storage.parts) :
    2 * part.length ≤ array.grownUp.storage.segmentCapacity := by
  have husable := usable_double h
  have hblank := Storage.exact_blank husable
  have hcount : 0 < (Storage.blank (2 * array.capacity)).segmentCount :=
    hblank.length_whole_pos
  obtain ⟨half, hhalf⟩ := hblank.shaped.two_dvd_segmentCapacity
  have hcapacity := Storage.capacity_blank husable
  have htotal := h.total_le_capacity
  rw [h.total_eq] at htotal
  rw [Storage.capacity, hhalf, Nat.mul_left_comm] at hcapacity
  have hfit : array.storage.entries.length ≤
      (Storage.blank (2 * array.capacity)).segmentCount * half := by
    rw [Nat.eq_of_mul_eq_mul_left (by omega) hcapacity]
    exact htotal
  rw [parts_grownUp] at hpart
  have hshare := List.mem_map_of_mem (f := List.length) hpart
  rw [Storage.map_length_deal_shares hcount] at hshare
  have hle := le_of_mem_shares hfit hshare
  change 2 * part.length ≤ (Storage.blank (2 * array.capacity)).segmentCapacity
  omega

theorem two_mul_filled_grownUp_le (h : array.storage.Exact) (number : Nat) :
    2 * array.grownUp.storage.filled number ≤
      array.grownUp.storage.segmentCapacity := by
  rw [Storage.filled, List.getD_eq_getElem?_getD]
  cases hpart : array.grownUp.storage.parts[number]? with
  | none => exact Nat.zero_le _
  | some part => exact length_part_grownUp h (List.mem_of_getElem? hpart)

theorem exact_grownUp (h : array.storage.Exact) :
    array.grownUp.storage.Exact := by
  have hblank := Storage.exact_blank (usable_double h)
  exact hblank.exact_dealOut hblank.length_whole_pos (length_entries_le_blank h)

theorem entries_grownUp (h : array.storage.Exact) :
    array.grownUp.storage.entries = array.storage.entries := by
  have hblank := Storage.exact_blank (usable_double h)
  rw [Storage.entries_eq_flatten, parts_grownUp]
  exact Storage.flatten_deal_shares hblank.length_whole_pos _

/-! ## Consistent arrays -/

variable [LawfulIndex ι]

structure Rearranges (old new : PackedArray ρ ι) : Prop where
  consistent : Consistent new
  entries_eq : new.storage.entries = old.storage.entries
  policy_eq : new.policy = old.policy

theorem Rearranges.refl (h : Consistent array) : Rearranges array array :=
  ⟨h, rfl, rfl⟩

theorem Rearranges.find?_eq {new : PackedArray ρ ι}
    (h : Rearranges array new) (harray : Consistent array) (key : Key) :
    new.find? key = array.find? key :=
  harray.find?_congr h.consistent h.entries_eq key

theorem Rearranges.size_eq {new : PackedArray ρ ι}
    (h : Rearranges array new) (harray : Consistent array) :
    new.size = array.size := by
  rw [h.consistent.size_eq, h.entries_eq, harray.size_eq]

theorem rearranges_spreadOut (h : Consistent array) (hlength : 0 < window.length)
    (hwindow : window.start + window.length ≤ array.storage.segmentCount) :
    Rearranges array (array.spreadOut window) := by
  have hentries := entries_spreadOut hlength hwindow
  have hascending := h.ascending
  rw [← hentries] at hascending
  have hleaders := ascending_firstKeys
    (Storage.entries_eq_flatten _ ▸ hascending) 0
  have hparts := hwindow
  rw [← Storage.length_parts] at hparts
  have hold := firstKeys_window hparts (Storage.length_partsOf hwindow)
  rw [Storage.take_partsOf_drop, ← h.index_eq] at hold
  rw [parts_spreadOut hwindow, firstKeys_window hparts (by simp)] at hleaders
  refine ⟨⟨exact_spreadOut h.exact hlength, hascending, ?_, ?_⟩, hentries, rfl⟩
  · exact LawfulIndex.valid_insertAll
      (LawfulIndex.valid_removeAll h.valid _) _
  · rw [parts_spreadOut hwindow, firstKeys_window hparts (by simp)]
    exact LawfulIndex.entries_exchange h.valid hold hleaders

theorem predecessor_spreadOut (h : Consistent array)
    (hlength : 0 < window.length)
    (hwindow : window.start + window.length ≤ array.storage.segmentCount)
    {key : Key} (hlow : window.start ≤ array.predecessor key)
    (hhigh : array.predecessor key < window.start + window.length) :
    window.start ≤ (array.spreadOut window).predecessor key ∧
      (array.spreadOut window).predecessor key <
        window.start + window.length := by
  have hold := h.owns_predecessor key
  rw [← array.storage.take_partsOf_drop window] at hold
  have hnew :=
    (rearranges_spreadOut h hlength hwindow).consistent.owns_predecessor key
  rw [parts_spreadOut hwindow] at hnew
  have hstart : (array.storage.parts.take window.start).length =
      window.start := by
    rw [List.length_take, Storage.length_parts]
    omega
  have hparts := Storage.length_partsOf hwindow
  have hwithin := hold.within hnew (by omega) (by omega)
    (by rw [length_deal, length_shares, hparts])
    (Storage.flatten_deal_shares hlength _)
  rwa [hstart, hparts] at hwithin

theorem rearranges_grownUp (h : Consistent array) :
    Rearranges array array.grownUp := by
  have hentries := entries_grownUp h.exact
  have hascending := h.ascending
  rw [← hentries] at hascending
  refine ⟨⟨exact_grownUp h.exact, hascending, ?_, ?_⟩, hentries, rfl⟩
  · exact LawfulIndex.valid_insertAll (LawfulIndex.valid_clear _) _
  · rw [parts_grownUp]
    refine LawfulIndex.entries_insertAll_of_nil (LawfulIndex.valid_clear _)
      (LawfulIndex.entries_clear _) (ascending_firstKeys ?_ 0)
    rw [← parts_grownUp, ← Storage.entries_eq_flatten]
    exact hascending

end PackedArray

end PackedMemory
