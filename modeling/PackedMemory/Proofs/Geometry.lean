import Mathlib
import PackedMemory.Storage.Basic

/-!
# Geometry of a storage

A usable capacity is a power of two of at least four slots.  Its segments are
powers of two of at least two slots, and there are at least two of them, so the
tree over them has a root above its leaves.
-/

namespace PackedMemory

theorem isPowerOfTwo_iff (number : Nat) :
    isPowerOfTwo number = true ↔ ∃ exponent, number = 2 ^ exponent := by
  simp only [isPowerOfTwo, beq_iff_eq, Nat.pow_eq]
  constructor
  · intro h
    exact ⟨Nat.log2 number, h.symm⟩
  · rintro ⟨exponent, rfl⟩
    rw [Nat.log2_two_pow]

theorem isUsableCapacity_iff (capacity : Nat) :
    isUsableCapacity capacity = true ↔
      ∃ exponent, 2 ≤ exponent ∧ capacity = 2 ^ exponent := by
  simp only [isUsableCapacity, Bool.and_eq_true, decide_eq_true_eq,
    isPowerOfTwo_iff]
  constructor
  · rintro ⟨hleast, exponent, rfl⟩
    exact ⟨exponent, (Nat.pow_le_pow_iff_right (a := 2) (by omega)).mp hleast,
      rfl⟩
  · rintro ⟨exponent, hleast, rfl⟩
    exact ⟨Nat.pow_le_pow_right (n := 2) (by omega) hleast, exponent, rfl⟩

theorem isUsableCapacity_double {capacity : Nat}
    (h : isUsableCapacity capacity = true) :
    isUsableCapacity (2 * capacity) = true := by
  obtain ⟨exponent, hleast, rfl⟩ := (isUsableCapacity_iff capacity).mp h
  refine (isUsableCapacity_iff _).mpr ⟨exponent + 1, by omega, ?_⟩
  rw [Nat.pow_succ, Nat.mul_comm]

theorem ceilLog2_pos {number : Nat} (h : 2 ≤ number) : 0 < ceilLog2 number := by
  rw [ceilLog2, if_neg (by omega)]
  omega

theorem ceilLog2_lt {number : Nat} (h : 2 ≤ number) :
    ceilLog2 number < number := by
  rw [ceilLog2, if_neg (by omega)]
  have hlog : Nat.log2 (number - 1) < number - 1 :=
    (Nat.log2_lt (by omega)).mpr Nat.lt_two_pow_self
  omega

theorem le_nextPowerOfTwo (number : Nat) : number ≤ nextPowerOfTwo number := by
  simp only [nextPowerOfTwo, ceilLog2, Nat.pow_eq]
  split
  · simpa using by assumption
  · have hlog := Nat.lt_log2_self (n := number - 1)
    omega

theorem ceilLog2_le {number exponent : Nat} (h : number ≤ 2 ^ exponent) :
    ceilLog2 number ≤ exponent := by
  rw [ceilLog2]
  split
  · exact Nat.zero_le exponent
  · exact (Nat.log2_lt (by omega)).mpr (by omega)

def powersFrom (bound : Nat) : Set Nat :=
  {power | power.isPowerOfTwo ∧ bound ≤ power}

theorem isLeast_nextPowerOfTwo (number : Nat) :
    IsLeast (powersFrom number) (nextPowerOfTwo number) := by
  refine ⟨⟨⟨ceilLog2 number, rfl⟩, le_nextPowerOfTwo number⟩, ?_⟩
  rintro power ⟨⟨exponent, rfl⟩, hbound⟩
  exact Nat.pow_le_pow_right (by omega) (ceilLog2_le hbound)

theorem nextPowerOfTwo_lt_wordLimit_iff (number : Nat) :
    nextPowerOfTwo number < wordLimit ↔ number ≤ 2 ^ 63 := by
  constructor
  · intro h
    have hexponent : ceilLog2 number < 64 :=
      (Nat.pow_lt_pow_iff_right (a := 2) (by omega)).mp h
    exact (le_nextPowerOfTwo number).trans
      (Nat.pow_le_pow_right (by omega) (by omega))
  · intro h
    have hleast := (isLeast_nextPowerOfTwo number).2 ⟨⟨63, rfl⟩, h⟩
    exact Nat.lt_of_le_of_lt hleast (by decide)

theorem normalizeCapacity_eq_ok_iff (capacity rounded : Nat) :
    normalizeCapacity capacity = .ok rounded ↔
      max capacity leastCapacity ≤ 2 ^ 63 ∧
        IsLeast (powersFrom (max capacity leastCapacity)) rounded := by
  have hleast := isLeast_nextPowerOfTwo (max capacity leastCapacity)
  simp only [normalizeCapacity, ← nextPowerOfTwo_lt_wordLimit_iff]
  split
  · rename_i hlimit
    rw [Except.ok.injEq]
    exact ⟨fun heq => ⟨hlimit, heq ▸ hleast⟩, fun h => hleast.unique h.2⟩
  · rename_i hlimit
    simp [hlimit]

theorem Config.validate_eq_ok_iff {ρ : Type} [Quantity ρ] (config : Config ρ)
    (capacity : Nat) :
    config.validate = .ok capacity ↔
      config.thresholds.validate = .ok () ∧
        normalizeCapacity config.initialCapacity = .ok capacity ∧
          capacity ≤ config.maxCapacity := by
  simp only [Config.validate, bind, Except.bind]
  cases config.thresholds.validate with
  | error fault => simp
  | ok _ =>
      cases normalizeCapacity config.initialCapacity with
      | error fault => simp
      | ok rounded =>
          by_cases hmaximal : config.maxCapacity < rounded
          · simp only [if_pos hmaximal, Except.ok.injEq, reduceCtorEq,
              false_iff, true_and]
            rintro ⟨rfl, hle⟩
            exact absurd hmaximal (Nat.not_lt.mpr hle)
          · simp only [if_neg hmaximal, Except.ok.injEq, true_and]
            constructor
            · rintro rfl
              exact ⟨rfl, Nat.not_lt.mp hmaximal⟩
            · exact And.left

theorem segmentCapacityFor_two_pow (exponent : Nat) :
    segmentCapacityFor (2 ^ exponent) = 2 ^ ceilLog2 exponent := by
  simp only [segmentCapacityFor, nextPowerOfTwo, Nat.log2_two_pow, Nat.pow_eq]

theorem isUsableCapacity_of_validate {ρ : Type} [Quantity ρ]
    {config : Config ρ} {capacity : Nat} (h : config.validate = .ok capacity) :
    isUsableCapacity capacity = true := by
  obtain ⟨-, hrounded, -⟩ := (config.validate_eq_ok_iff capacity).mp h
  obtain ⟨-, ⟨⟨exponent, rfl⟩, hbound⟩, -⟩ :=
    (normalizeCapacity_eq_ok_iff _ _).mp hrounded
  have hleast : 2 ^ 2 ≤ 2 ^ exponent := (le_max_right _ _).trans hbound
  exact (isUsableCapacity_iff _).mpr
    ⟨exponent, (Nat.pow_le_pow_iff_right (by omega)).mp hleast, rfl⟩

/-- The shape of a storage: the capacity fixes the size of its segments. -/
structure Storage.Shaped (storage : Storage) : Prop where
  usable : isUsableCapacity storage.capacity = true
  segmentCapacity_eq :
    storage.segmentCapacity = segmentCapacityFor storage.capacity

namespace Storage

theorem Shaped.exists_exponents {storage : Storage} (h : storage.Shaped) :
    ∃ width depth, 0 < width ∧ 0 < depth ∧
      storage.segmentCapacity = 2 ^ width ∧
      storage.segmentCount = 2 ^ depth := by
  obtain ⟨exponent, hleast, hcapacity⟩ :=
    (isUsableCapacity_iff _).mp h.usable
  have hwidth := h.segmentCapacity_eq
  rw [hcapacity, segmentCapacityFor_two_pow] at hwidth
  have hlt := ceilLog2_lt hleast
  refine ⟨ceilLog2 exponent, exponent - ceilLog2 exponent,
    ceilLog2_pos hleast, by omega, hwidth, ?_⟩
  have hproduct : storage.segmentCount * 2 ^ ceilLog2 exponent =
      2 ^ (exponent - ceilLog2 exponent) * 2 ^ ceilLog2 exponent := by
    rw [← Nat.pow_add, Nat.sub_add_cancel (by omega), ← hcapacity, capacity,
      hwidth]
  exact Nat.eq_of_mul_eq_mul_right (Nat.two_pow_pos _) hproduct

theorem Shaped.two_le_segmentCapacity {storage : Storage}
    (h : storage.Shaped) : 2 ≤ storage.segmentCapacity := by
  obtain ⟨width, depth, hwidth, -, hcapacity, -⟩ := h.exists_exponents
  rw [hcapacity]
  exact Nat.pow_le_pow_right (n := 2) (by omega) hwidth

theorem Shaped.two_dvd_segmentCapacity {storage : Storage}
    (h : storage.Shaped) : 2 ∣ storage.segmentCapacity := by
  obtain ⟨width, depth, hwidth, -, hcapacity, -⟩ := h.exists_exponents
  rw [hcapacity]
  exact dvd_pow_self 2 hwidth.ne'

theorem Shaped.two_le_segmentCount {storage : Storage}
    (h : storage.Shaped) : 2 ≤ storage.segmentCount := by
  obtain ⟨width, depth, -, hdepth, -, hcount⟩ := h.exists_exponents
  rw [hcount]
  exact Nat.pow_le_pow_right (n := 2) (by omega) hdepth

theorem capacity_blank {capacity : Nat} (h : isUsableCapacity capacity = true) :
    (blank capacity).capacity = capacity := by
  obtain ⟨exponent, hleast, rfl⟩ := (isUsableCapacity_iff capacity).mp h
  have hlt := ceilLog2_lt hleast
  have hdivides : 2 ^ ceilLog2 exponent ∣ 2 ^ exponent :=
    Nat.pow_dvd_pow 2 (by omega)
  simp only [blank, Storage.capacity, segmentCount, Array.size_replicate,
    segmentCapacityFor_two_pow]
  exact Nat.div_mul_cancel hdivides

theorem shaped_blank {capacity : Nat} (h : isUsableCapacity capacity = true) :
    (blank capacity).Shaped where
  usable := by rw [capacity_blank h]; exact h
  segmentCapacity_eq := by rw [capacity_blank h]; rfl

end Storage

end PackedMemory
