import PackedMemory.Proofs.PackedArray.Density

/-!
# The limit of a capacity

With three quarters as the upper bound of the root, and with exact densities,
rebalancing makes an array grow just when it holds more entries than its
capacity allows, wherever they stand.  Within this limit an even spread of the
whole array meets every bound, so some spread mends all that is overfull; beyond
it the root is overfull, and no spread mends that.
-/

namespace PackedMemory

/--
The most entries that an array holds without growing: three quarters of its
slots, but of segments of two slots one half, as every segment needs a gap.
-/
def loadLimit (capacity : Nat) : Nat :=
  if capacity = leastCapacity then 2 else 3 * capacity / 4

theorem loadLimit_mono {fewer more : Nat} (h : fewer ≤ more) :
    loadLimit fewer ≤ loadLimit more := by
  have hleast : leastCapacity = 4 := rfl
  rw [loadLimit, loadLimit, hleast]
  split <;> split <;> omega

def Policy.growth {ρ : Type} (policy : Policy ρ) (capacity size : Nat) :
    Except Fault Nat :=
  if size ≤ loadLimit capacity then
    .ok capacity
  else if policy.Permits (2 * capacity) then
    .ok (2 * capacity)
  else
    .error (.allocationFailure (2 * capacity))

namespace Storage

variable {storage : Storage}

theorem Shaped.least_or_four_dvd (h : storage.Shaped) :
    (storage.capacity = leastCapacity ∧ storage.segmentCapacity = 2) ∨
      storage.capacity ≠ leastCapacity ∧ 4 ∣ storage.segmentCapacity := by
  obtain ⟨exponent, hleast, hcapacity⟩ :=
    (isUsableCapacity_iff _).mp h.usable
  have hslots := h.segmentCapacity_eq
  rw [hcapacity, segmentCapacityFor_two_pow] at hslots
  rw [hcapacity, hslots]
  rcases Nat.eq_or_lt_of_le hleast with rfl | hmore
  · exact .inl ⟨rfl, rfl⟩
  · have hlog : 1 ≤ Nat.log2 (exponent - 1) :=
      (Nat.le_log2 (by omega)).mpr (by omega)
    have hwidth : 2 ≤ ceilLog2 exponent := by
      rw [ceilLog2, if_neg (by omega)]
      omega
    refine .inr ⟨?_, Nat.pow_dvd_pow 2 hwidth⟩
    have hlarge : 2 ^ 3 ≤ 2 ^ exponent := Nat.pow_le_pow_right (by omega) hmore
    exact fun hequal => absurd (hlarge.trans_eq hequal) (by decide)

/-- Within the limit all segments can have an equal share. -/
theorem Shaped.exists_share (h : storage.Shaped) :
    ∃ share, loadLimit storage.capacity = storage.segmentCount * share ∧
      share ≤ storage.segmentCapacity - 1 ∧
        4 * share ≤ 3 * storage.segmentCapacity := by
  have hproduct : storage.capacity =
      storage.segmentCount * storage.segmentCapacity := rfl
  rw [loadLimit]
  obtain ⟨hleast, hslots⟩ | ⟨hlarge, quarter, hslots⟩ := h.least_or_four_dvd
  · rw [hleast, hslots, leastCapacity] at hproduct
    exact ⟨1, by rw [if_pos hleast]; omega, by omega, by omega⟩
  · have htwo := h.two_le_segmentCapacity
    refine ⟨3 * quarter, ?_, by omega, by omega⟩
    rw [if_neg hlarge, hproduct, hslots,
      show 3 * (storage.segmentCount * (4 * quarter)) =
        4 * (storage.segmentCount * (3 * quarter)) by ring]
    exact Nat.mul_div_cancel_left _ (by omega)

theorem Shaped.le_loadLimit_iff (h : storage.Shaped) (elements : Nat) :
    elements ≤ loadLimit storage.capacity ↔
      elements ≤ storage.segmentCount * (storage.segmentCapacity - 1) ∧
        4 * elements ≤ 3 * storage.capacity := by
  have hproduct : storage.capacity =
      storage.segmentCount * storage.segmentCapacity := rfl
  rw [loadLimit]
  obtain ⟨hleast, hslots⟩ | ⟨hlarge, quarter, hslots⟩ := h.least_or_four_dvd
  · rw [hleast, hslots] at hproduct
    rw [if_pos hleast, hleast, hslots]
    simp only [leastCapacity] at hproduct ⊢
    omega
  · have htwo := h.two_le_segmentCapacity
    have hgaps : 4 * elements ≤ 3 * storage.capacity →
        elements ≤ storage.segmentCount * (storage.segmentCapacity - 1) := by
      intro hdensity
      have hslot : 3 * storage.segmentCapacity ≤
          4 * (storage.segmentCapacity - 1) := by
        rw [hslots] at htwo ⊢
        omega
      have hroom := Nat.mul_le_mul_left storage.segmentCount hslot
      rw [Nat.mul_left_comm, ← hproduct, Nat.mul_left_comm] at hroom
      omega
    rw [if_neg hlarge, Nat.le_div_iff_mul_le (by omega), Nat.mul_comm]
    exact ⟨fun hdensity => ⟨hgaps hdensity, hdensity⟩, And.right⟩

end Storage

structure Thresholds.ThreeQuarters (thresholds : Thresholds Rat) : Prop where
  rootUpper_eq : thresholds.rootUpper = 3 / 4
  rootUpper_le_leafUpper : thresholds.rootUpper ≤ thresholds.leafUpper

theorem Gauge.isSpreadable_of_share {gauge : Gauge Rat}
    {level elements share : Nat}
    (hbounds : gauge.thresholds.rootUpper ≤ gauge.thresholds.leafUpper)
    (hgap : share ≤ gauge.segmentCapacity - 1)
    (hshare : (share : Rat) / (gauge.segmentCapacity : Rat) ≤
      gauge.thresholds.rootUpper)
    (h : elements ≤ Window.lengthAt level * share) :
    gauge.isSpreadable level elements = true := by
  rw [isSpreadable_iff]
  intro sub _ _
  have hlength : (Window.lengthAt sub : Rat) ≠ 0 :=
    Nat.cast_ne_zero.mpr (Window.lengthAt_pos sub).ne'
  refine isOverfull_mono (largestShare_le h sub) ?_
  rw [isOverfull_eq_false_iff_le]
  refine ⟨Nat.mul_le_mul_left _ hgap, fun _ => ?_⟩
  rw [Nat.cast_mul, Nat.cast_mul, mul_div_mul_left _ _ hlength]
  exact hshare.trans (Thresholds.rootUpper_le_upper hbounds sub gauge.height)

namespace PackedArray

variable {ι : Type} {array new : PackedArray Rat ι} {segment : Nat}

/-! ## The root -/

theorem root_mem_readings (hexact : array.storage.Exact) (segment : Nat) :
    array.readingAt segment array.storage.height ∈ array.readings segment :=
  mem_readings.mpr ⟨_, hexact.two_le_height, Nat.le_refl _, rfl⟩

theorem isOverfull_root_eq_false_iff (hexact : array.storage.Exact)
    (hbounds : array.policy.thresholds.ThreeQuarters) (elements : Nat) :
    array.gauge.isOverfull array.storage.height elements = false ↔
      elements ≤ loadLimit array.capacity := by
  have hheight := hexact.two_le_height
  have hcapacity : 0 < array.storage.segmentCount *
      array.storage.segmentCapacity := hexact.capacity_pos
  have hupper : (array.policy.thresholds.atLevel array.storage.height
      array.storage.height).upper = 3 / 4 := by
    rw [Thresholds.atLevel_root, hbounds.rootUpper_eq]
  rw [Gauge.isOverfull_eq_false_iff_le, capacity,
    hexact.shaped.le_loadLimit_iff, hexact.lengthAt_height]
  refine and_congr_right fun _ => ?_
  simp only [gauge, hupper]
  rw [div_le_div_iff₀ (Nat.cast_pos.mpr hcapacity) (by norm_num)]
  constructor
  · intro hdensity
    have hcounts := hdensity (by omega)
    norm_cast at hcounts
    rw [Storage.capacity]
    omega
  · intro hcounts _
    rw [Storage.capacity] at hcounts
    exact_mod_cast (Nat.mul_comm elements 4).trans_le hcounts

theorem isSpreadable_root (hexact : array.storage.Exact)
    (hbounds : array.policy.thresholds.ThreeQuarters) {elements : Nat}
    (h : elements ≤ loadLimit array.capacity) :
    array.gauge.isSpreadable array.storage.height elements = true := by
  have hslots := hexact.shaped.two_le_segmentCapacity
  obtain ⟨share, hlimit, hgap, hshare⟩ := hexact.shaped.exists_share
  refine Gauge.isSpreadable_of_share hbounds.rootUpper_le_leafUpper hgap ?_ ?_
  · simp only [gauge, hbounds.rootUpper_eq]
    rw [div_le_div_iff₀ (Nat.cast_pos.mpr (by omega)) (by norm_num)]
    exact_mod_cast (Nat.mul_comm share 4).trans_le hshare
  · rw [hexact.lengthAt_height, ← hlimit]
    exact h

theorem fits_root_iff (hexact : array.storage.Exact)
    (hbounds : array.policy.thresholds.ThreeQuarters)
    (hsegment : segment < array.storage.segmentCount) :
    array.Fits segment array.storage.height ↔
      array.size ≤ loadLimit array.capacity := by
  rw [Fits, occupied_root hexact hsegment,
    isOverfull_root_eq_false_iff hexact hbounds]

theorem Relaxed.size_le_loadLimit (hrelaxed : array.Relaxed)
    (hexact : array.storage.Exact)
    (hbounds : array.policy.thresholds.ThreeQuarters) :
    array.size ≤ loadLimit array.capacity := by
  have hcount := hexact.length_whole_pos
  exact (fits_root_iff hexact hbounds hcount).mp
    (hrelaxed 0 hcount _ hexact.two_le_height (Nat.le_refl _))

/-! ## Rebalancing -/

section Rebalancing

variable (hexact : array.storage.Exact)
  (hbounds : array.policy.thresholds.ThreeQuarters)
  (hsegment : segment < array.storage.segmentCount)
include hexact hbounds hsegment

/-- A window can settle what is wrong only while the root is within its limit. -/
theorem size_le_loadLimit_of_settles {level : Nat}
    (hhigh : level ≤ array.storage.height)
    (hsettles : array.gauge.settles (array.readings segment)
      (array.readingAt segment level) = true) :
    array.size ≤ loadLimit array.capacity := by
  rw [← fits_root_iff hexact hbounds hsegment]
  by_contra hover
  have hbelow := ((array.gauge.settles_iff _ _).mp hsettles).2
    (array.readingAt segment array.storage.height)
    (root_mem_readings hexact segment) (Bool.not_eq_false _ |>.mp hover)
  exact absurd hhigh (Nat.not_le.mpr hbelow)

theorem settles_root (h : array.size ≤ loadLimit array.capacity) :
    array.gauge.settles (array.readings segment)
      (array.readingAt segment array.storage.height) = true := by
  refine (array.gauge.settles_iff _ _).mpr ⟨?_, ?_⟩
  · have hspreadable := isSpreadable_root hexact hbounds h
    rw [← occupied_root hexact hsegment] at hspreadable
    exact hspreadable
  · intro other hother hover
    obtain ⟨level, hlow, hhigh, rfl⟩ := mem_readings.mp hother
    refine Nat.lt_of_le_of_ne hhigh fun heq => ?_
    subst heq
    have hfits := (fits_root_iff hexact hbounds hsegment).mpr h
    rw [Fits] at hfits
    exact absurd hover (Bool.eq_false_iff.mp hfits)

theorem loadLimit_lt_of_cause {needsGap : Bool}
    (hcause : array.isCrammed = true ∨
      array.repair segment (array.readings segment) needsGap = .grow) :
    loadLimit array.capacity < array.size := by
  by_contra hle
  have hwithin := Nat.not_lt.mp hle
  rcases hcause with hcrammed | hrepair
  · have hfits := (fits_root_iff hexact hbounds hsegment).mpr hwithin
    rw [isCrammed, beq_iff_eq] at hcrammed
    exact absurd hcrammed
      (Nat.ne_of_lt (hfits.size_lt_capacity hexact hsegment))
  · have hunsettled := ((array.gauge.repair_eq_grow_iff
      (climbing_readings array segment) _).mp hrepair).2 _
        (root_mem_readings hexact segment)
    rw [settles_root hexact hbounds hsegment hwithin] at hunsettled
    contradiction

end Rebalancing

variable [OrderIndex ι] [LawfulIndex ι]

theorem Rebalancing.growth_eq {result : Except Fault Unit}
    (h : Rebalancing array segment false result new) (harray : Consistent array)
    (hbounds : array.policy.thresholds.ThreeQuarters)
    (hsegment : segment < array.storage.segmentCount) :
    (result.map fun _ => new.capacity) =
      array.policy.growth array.capacity array.size := by
  have hexact := harray.exact
  rw [Policy.growth]
  cases h with
  | left hcrammed hrepair =>
      have hfits := ((array.gauge.repair_eq_leave_iff
        (climbing_readings array segment) _).mp hrepair).1
      have hwithin := (fits_root_iff hexact hbounds hsegment).mp
        (hfits _ (root_mem_readings hexact segment))
      rw [if_pos hwithin]
      rfl
  | spread hcrammed hlow hhigh hsettles =>
      have hwithin :=
        size_le_loadLimit_of_settles hexact hbounds hsegment hhigh hsettles
      have hshape := sameShape_spreadOut harray hsegment hhigh
      rw [if_pos hwithin, ← hshape.capacity_eq]
      rfl
  | grown hcause hgrow =>
      have hbeyond := loadLimit_lt_of_cause hexact hbounds hsegment hcause
      rw [CanGrow] at hgrow
      rw [if_neg (Nat.not_le.mpr hbeyond), if_pos hgrow,
        ← capacity_grownUp harray.exact]
      rfl
  | refused hcause hgrow =>
      have hbeyond := loadLimit_lt_of_cause hexact hbounds hsegment hcause
      rw [CanGrow] at hgrow
      rw [if_neg (Nat.not_le.mpr hbeyond), if_neg hgrow]
      rfl

end PackedArray

end PackedMemory
