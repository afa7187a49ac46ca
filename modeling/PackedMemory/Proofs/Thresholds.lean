import Mathlib
import PackedMemory.Thresholds

/-!
# Bounds between leaf and root

The upper bound of a level stands on the way from the upper bound of the root to
that of a leaf, as far along as the level is below the root, and so does the
lower bound.  No level reaches the leaf end, yet the lowest levels of ever
higher trees come as near to it as one likes.  So a check of the two ends
accepts exactly those bounds that are in order at every level of every tree.
-/

namespace PackedMemory

namespace Bounds

structure Proper (bounds : Bounds Rat) : Prop where
  lower_nonneg : 0 ≤ bounds.lower
  lower_lt_upper : bounds.lower < bounds.upper
  upper_le_one : bounds.upper ≤ 1

structure Within (tighter looser : Bounds Rat) : Prop where
  upper_le_upper : tighter.upper ≤ looser.upper
  lower_le_lower : looser.lower ≤ tighter.lower

end Bounds

namespace Thresholds

open AffineMap

/-! ## What a check accepts -/

theorem flaw?_eq_none_iff {ρ : Type} [Quantity ρ] (thresholds : Thresholds ρ) :
    thresholds.flaw? = none ↔
      (∀ bound ∈ [thresholds.leafUpper, thresholds.rootUpper,
        thresholds.leafLower, thresholds.rootLower], inUnit bound = true) ∧
      (Quantity.lt thresholds.leafUpper thresholds.rootUpper = false ∧
        Quantity.lt thresholds.rootLower thresholds.leafLower = false) ∧
      Quantity.le thresholds.leafUpper thresholds.leafLower = false ∧
        Quantity.le thresholds.rootUpper thresholds.rootLower = false := by
  simp only [flaw?, ite_eq_iff, reduceCtorEq, and_false, and_true, false_or,
    List.any_eq_true, Bool.or_eq_true, not_or, not_exists, not_and,
    Bool.not_eq_true, Bool.not_eq_true', Bool.not_eq_false]

theorem inUnit_iff (bound : Rat) :
    inUnit bound = true ↔ 0 ≤ bound ∧ bound ≤ 1 := by
  simp [inUnit, Quantity.le, Quantity.ofNat]

variable {thresholds : Thresholds Rat}

/--
Bounds in the unit interval that tighten toward the root and leave room there;
then they leave room at the leaves as well.
-/
structure Sound (thresholds : Thresholds Rat) : Prop where
  leafLower_nonneg : 0 ≤ thresholds.leafLower
  leafLower_le_rootLower : thresholds.leafLower ≤ thresholds.rootLower
  rootLower_lt_rootUpper : thresholds.rootLower < thresholds.rootUpper
  rootUpper_le_leafUpper : thresholds.rootUpper ≤ thresholds.leafUpper
  leafUpper_le_one : thresholds.leafUpper ≤ 1

namespace Sound

variable (h : thresholds.Sound)
include h

theorem leafLower_lt_leafUpper : thresholds.leafLower < thresholds.leafUpper :=
  h.leafLower_le_rootLower.trans_lt
    (h.rootLower_lt_rootUpper.trans_le h.rootUpper_le_leafUpper)

theorem rootLower_nonneg : 0 ≤ thresholds.rootLower :=
  h.leafLower_nonneg.trans h.leafLower_le_rootLower

theorem rootUpper_le_one : thresholds.rootUpper ≤ 1 :=
  h.rootUpper_le_leafUpper.trans h.leafUpper_le_one

end Sound

theorem validate_eq_ok_iff_sound :
    thresholds.validate = .ok () ↔ thresholds.Sound := by
  simp only [validate_eq_ok_iff, flaw?_eq_none_iff, Quantity.lt, Quantity.le,
    decide_eq_false_iff_not, not_lt, not_le, List.forall_mem_cons, inUnit_iff]
  constructor
  · rintro ⟨⟨hleafUpper, -, hleafLower, -⟩, ⟨hupper, hlower⟩, -, hroot⟩
    exact ⟨hleafLower.1, hlower, hroot, hupper, hleafUpper.2⟩
  · intro h
    have hleaf := h.leafLower_lt_leafUpper
    have hroot := h.rootLower_lt_rootUpper
    refine ⟨⟨⟨?_, h.leafUpper_le_one⟩, ⟨?_, h.rootUpper_le_one⟩,
        ⟨h.leafLower_nonneg, ?_⟩, ⟨h.rootLower_nonneg, ?_⟩, by simp⟩,
      ⟨h.rootUpper_le_leafUpper, h.leafLower_le_rootLower⟩, hleaf, hroot⟩
    · exact h.leafLower_nonneg.trans hleaf.le
    · exact h.rootLower_nonneg.trans hroot.le
    · exact hleaf.le.trans h.leafUpper_le_one
    · exact hroot.le.trans h.rootUpper_le_one

def descent (level height : Nat) : Rat :=
  Quantity.ratio (height - level) height

theorem descent_eq (level height : Nat) :
    descent level height = ((height - level : Nat) : Rat) / (height : Rat) :=
  rfl

theorem descent_nonneg (level height : Nat) : 0 ≤ descent level height :=
  div_nonneg (Nat.cast_nonneg _) (Nat.cast_nonneg _)

theorem descent_le_one (level height : Nat) : descent level height ≤ 1 :=
  div_le_one_of_le₀ (Nat.cast_le.mpr (Nat.sub_le _ _)) (Nat.cast_nonneg _)

theorem descent_pos {level height : Nat} (h : level < height) :
    0 < descent level height :=
  div_pos (Nat.cast_pos.mpr (Nat.sub_pos_of_lt h))
    (Nat.cast_pos.mpr (Nat.zero_lt_of_lt h))

theorem descent_self (height : Nat) : descent height height = 0 := by
  rw [descent_eq, Nat.sub_self, Nat.cast_zero, zero_div]

theorem descent_anti (height : Nat) :
    Antitone fun level => descent level height := by
  intro level higher hlevel
  exact div_le_div_of_nonneg_right
    (Nat.cast_le.mpr (Nat.sub_le_sub_left hlevel height)) (Nat.cast_nonneg _)

theorem upper_eq_lineMap (thresholds : Thresholds Rat) (level height : Nat) :
    (thresholds.atLevel level height).upper =
      lineMap thresholds.rootUpper thresholds.leafUpper
        (descent level height) := by
  change thresholds.rootUpper + _ * descent level height = _
  rw [lineMap_apply_ring', mul_comm, add_comm]

theorem lower_eq_lineMap (thresholds : Thresholds Rat) (level height : Nat) :
    (thresholds.atLevel level height).lower =
      lineMap thresholds.rootLower thresholds.leafLower
        (descent level height) := by
  change thresholds.rootLower - _ * descent level height = _
  rw [lineMap_apply_ring']
  ring

theorem atLevel_root (thresholds : Thresholds Rat) (height : Nat) :
    thresholds.atLevel height height =
      ⟨thresholds.rootLower, thresholds.rootUpper⟩ := by
  have hlower := thresholds.lower_eq_lineMap height height
  have hupper := thresholds.upper_eq_lineMap height height
  rw [descent_self, lineMap_apply_zero] at hlower hupper
  exact congrArg₂ Bounds.mk hlower hupper

theorem rootUpper_le_upper (h : thresholds.rootUpper ≤ thresholds.leafUpper)
    (level height : Nat) :
    thresholds.rootUpper ≤ (thresholds.atLevel level height).upper := by
  have hway := lineMap_mono h (descent_nonneg level height)
  rwa [lineMap_apply_zero, ← upper_eq_lineMap] at hway

theorem Sound.proper (h : thresholds.Sound) (level height : Nat) :
    (thresholds.atLevel level height).Proper := by
  have hnonneg := descent_nonneg level height
  have hle := descent_le_one level height
  constructor
  · rw [lower_eq_lineMap, ← lineMap_same_apply 0 (descent level height)]
    exact lineMap_mono_endpoints h.rootLower_nonneg h.leafLower_nonneg
      hnonneg hle
  · rw [lower_eq_lineMap, upper_eq_lineMap]
    exact lineMap_strict_mono_endpoints h.rootLower_lt_rootUpper
      h.leafLower_lt_leafUpper hnonneg hle
  · rw [upper_eq_lineMap, ← lineMap_same_apply 1 (descent level height)]
    exact lineMap_mono_endpoints h.rootUpper_le_one h.leafUpper_le_one
      hnonneg hle

theorem Sound.within (h : thresholds.Sound) {level higher : Nat}
    (hlevel : level ≤ higher) (height : Nat) :
    (thresholds.atLevel higher height).Within
      (thresholds.atLevel level height) := by
  have hdescent := descent_anti height hlevel
  constructor
  · rw [upper_eq_lineMap, upper_eq_lineMap]
    exact lineMap_mono h.rootUpper_le_leafUpper hdescent
  · rw [lower_eq_lineMap, lower_eq_lineMap]
    exact lineMap_anti h.leafLower_le_rootLower hdescent

theorem lineMap_descent_one (root leaf : Rat) (height : Nat) :
    lineMap root leaf (descent 1 (height + 1)) =
      (height * leaf + root) / (height + 1) := by
  have hpos : (height : Rat) + 1 ≠ 0 := by positivity
  rw [lineMap_apply_ring', descent_eq, Nat.add_sub_cancel, Nat.cast_succ]
  field_simp
  ring

/-- What holds at the lowest levels of all trees holds at the leaf end. -/
theorem le_of_forall_lineMap_le {root leaf root' leaf' : Rat}
    (h : ∀ height, lineMap root leaf (descent 1 (height + 1)) ≤
      lineMap root' leaf' (descent 1 (height + 1))) : leaf ≤ leaf' := by
  by_contra hlt
  have hgap : 0 < leaf - leaf' := sub_pos.mpr (not_le.mp hlt)
  -- In a tree this high, the gap at the end outweighs the bounds of the root.
  obtain ⟨height, hheight⟩ := exists_nat_gt ((root' - root) / (leaf - leaf'))
  rw [div_lt_iff₀ hgap] at hheight
  have hpos : (0 : Rat) < height + 1 := by positivity
  have hlevel := h height
  rw [lineMap_descent_one, lineMap_descent_one,
    div_le_div_iff_of_pos_right hpos] at hlevel
  linarith

theorem sound_of_forall_level
    (hproper : ∀ height level, 1 ≤ level → level ≤ height →
      (thresholds.atLevel level height).Proper)
    (hwithin : ∀ height level, 1 ≤ level → level ≤ height →
      (thresholds.atLevel height height).Within
        (thresholds.atLevel level height)) : thresholds.Sound := by
  have hroot := hproper 1 1 (by omega) (by omega)
  have htightens := hwithin 2 1 (by omega) (by omega)
  have hhalf := descent_pos (show 1 < 2 by omega)
  rw [atLevel_root] at hroot htightens
  constructor
  · have hleast (height : Nat) : lineMap 0 0 (descent 1 (height + 1)) ≤
        lineMap thresholds.rootLower thresholds.leafLower
          (descent 1 (height + 1)) := by
      rw [lineMap_same_apply, ← lower_eq_lineMap]
      exact (hproper (height + 1) 1 (by omega) (by omega)).lower_nonneg
    exact le_of_forall_lineMap_le hleast
  · have hlower := htightens.lower_le_lower
    rw [lower_eq_lineMap] at hlower
    exact (lineMap_le_left_iff_le hhalf).mp hlower
  · exact hroot.lower_lt_upper
  · have hupper := htightens.upper_le_upper
    rw [upper_eq_lineMap] at hupper
    exact (left_le_lineMap_iff_le hhalf).mp hupper
  · have hmost (height : Nat) : lineMap thresholds.rootUpper
        thresholds.leafUpper (descent 1 (height + 1)) ≤
          lineMap 1 1 (descent 1 (height + 1)) := by
      rw [lineMap_same_apply, ← upper_eq_lineMap]
      exact (hproper (height + 1) 1 (by omega) (by omega)).upper_le_one
    exact le_of_forall_lineMap_le hmost

/-! ## Every level -/

theorem boundsAt_eq_ok_iff {ρ : Type} [Quantity ρ] (thresholds : Thresholds ρ)
    {level height : Nat} {bounds : Bounds ρ} :
    thresholds.boundsAt level height = .ok bounds ↔
      (1 ≤ level ∧ level ≤ height) ∧
        thresholds.atLevel level height = bounds := by
  simp only [boundsAt]
  split
  · rename_i hlevel
    rw [Except.ok.injEq, and_iff_right hlevel]
  · rename_i hlevel
    exact iff_of_false (by simp) fun hbounds => hlevel hbounds.1

/--
A check accepts bounds if and only if at every level of every tree they are
proper, no level is looser than one below it, and the root has its own.
-/
theorem validate_iff_every_level (thresholds : Thresholds Rat) :
    thresholds.validate = .ok () ↔
      ∀ height level higher, 1 ≤ level → level ≤ higher → higher ≤ height →
        ∃ bounds tighter,
          thresholds.boundsAt level height = .ok bounds ∧
          thresholds.boundsAt higher height = .ok tighter ∧
          bounds.Proper ∧ tighter.Within bounds ∧
          thresholds.boundsAt height height =
            .ok ⟨thresholds.rootLower, thresholds.rootUpper⟩ := by
  rw [validate_eq_ok_iff_sound]
  constructor
  · intro h height level higher hlow hlevel hhigh
    simp only [boundsAt_eq_ok_iff]
    exact ⟨_, _, ⟨⟨hlow, hlevel.trans hhigh⟩, rfl⟩,
      ⟨⟨hlow.trans hlevel, hhigh⟩, rfl⟩, h.proper level height,
      h.within hlevel height, ⟨by omega, le_rfl⟩,
      thresholds.atLevel_root height⟩
  · intro h
    simp only [boundsAt_eq_ok_iff] at h
    refine sound_of_forall_level ?_ ?_
    · intro height level hlow hhigh
      obtain ⟨_, _, ⟨-, rfl⟩, -, hproper, -⟩ := h height level height hlow hhigh
        le_rfl
      exact hproper
    · intro height level hlow hhigh
      obtain ⟨_, _, ⟨-, rfl⟩, ⟨-, rfl⟩, -, hwithin, -⟩ := h height level height
        hlow hhigh le_rfl
      exact hwithin

theorem every_level_of_default :
    (Thresholds.default : Thresholds Rat).validate = .ok () ∧
      ∃ bounds tighter,
        (Thresholds.default : Thresholds Rat).boundsAt 1 4 = .ok bounds ∧
        (Thresholds.default : Thresholds Rat).boundsAt 3 4 = .ok tighter ∧
        bounds.Proper ∧ tighter.Within bounds ∧
        (Thresholds.default : Thresholds Rat).boundsAt 4 4 =
          .ok ⟨3 / 10, 3 / 4⟩ :=
  have haccepted : (Thresholds.default : Thresholds Rat).validate = .ok () := by
    decide +kernel
  ⟨haccepted, (validate_iff_every_level _).mp haccepted 4 1 3 (by decide)
    (by decide) (by decide)⟩

end Thresholds

end PackedMemory
