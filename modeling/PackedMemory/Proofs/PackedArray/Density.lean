import PackedMemory.Proofs.PackedArray.Upkeep
import PackedMemory.Proofs.Thresholds

/-!
# Density bounds

With exact densities, and with bounds that allow a half full array, no window
above the leaves is ever left overfull: an insertion overfills at most windows
around one segment, a spread above the highest of these mends them all, and an
array that has grown is at most half full everywhere.
-/

namespace PackedMemory

namespace Thresholds

variable {thresholds : Thresholds Rat}

structure AllowHalf (thresholds : Thresholds Rat) : Prop where
  half_le_rootUpper : 1 / 2 ≤ thresholds.rootUpper
  rootUpper_le_leafUpper : thresholds.rootUpper ≤ thresholds.leafUpper

theorem AllowHalf.half_le_upper (h : thresholds.AllowHalf) (level height : Nat) :
    1 / 2 ≤ (thresholds.atLevel level height).upper :=
  h.half_le_rootUpper.trans
    (rootUpper_le_upper h.rootUpper_le_leafUpper level height)

end Thresholds

namespace Gauge

variable {gauge : Gauge Rat} {level fewer more elements : Nat}

theorem isOverfull_eq_false_iff_le (level elements : Nat) :
    gauge.isOverfull level elements = false ↔
      elements ≤ Window.lengthAt level * (gauge.segmentCapacity - 1) ∧
        (level ≠ 1 →
          (elements : Rat) /
              ((Window.lengthAt level * gauge.segmentCapacity : Nat) : Rat) ≤
            (gauge.thresholds.atLevel level gauge.height).upper) := by
  rw [isOverfull_eq_false_iff]
  refine and_congr_right fun _ => imp_congr_right fun _ => ?_
  exact decide_eq_false_iff_not.trans not_lt

theorem isOverfull_mono (h : fewer ≤ more)
    (hmore : gauge.isOverfull level more = false) :
    gauge.isOverfull level fewer = false := by
  rw [isOverfull_eq_false_iff_le] at hmore ⊢
  refine ⟨h.trans hmore.1, fun hlevel => le_trans ?_ (hmore.2 hlevel)⟩
  have hcast : (fewer : Rat) ≤ more := by exact_mod_cast h
  gcongr

theorem isOverfull_of_half (hbounds : gauge.thresholds.AllowHalf)
    (hslots : 2 ≤ gauge.segmentCapacity)
    (h : 2 * elements ≤ Window.lengthAt level * gauge.segmentCapacity) :
    gauge.isOverfull level elements = false := by
  have hlength := Window.lengthAt_pos level
  rw [isOverfull_eq_false_iff_le]
  constructor
  · have hslot : gauge.segmentCapacity ≤ 2 * (gauge.segmentCapacity - 1) := by
      omega
    have hroom := Nat.mul_le_mul_left (Window.lengthAt level) hslot
    rw [Nat.mul_left_comm] at hroom
    omega
  · intro _
    refine le_trans ?_ (hbounds.half_le_upper level gauge.height)
    have hpos : 0 < Window.lengthAt level * gauge.segmentCapacity :=
      Nat.mul_pos hlength (by omega)
    rw [div_le_div_iff₀ (by exact_mod_cast hpos) (by norm_num)]
    exact_mod_cast (by omega : elements * 2 ≤
      1 * (Window.lengthAt level * gauge.segmentCapacity))

end Gauge

namespace PackedArray

variable {ι : Type} {array new : PackedArray Rat ι} {segment : Nat}

/-! ## Relaxed arrays -/

/-- No window above the leaves is overfull. -/
def Relaxed (array : PackedArray Rat ι) : Prop :=
  ∀ other < array.storage.segmentCount, ∀ level, 2 ≤ level →
    level ≤ array.storage.height → array.Fits other level

def RelaxedBeside (array : PackedArray Rat ι) (segment : Nat) : Prop :=
  ∀ other < array.storage.segmentCount, ∀ level, 2 ≤ level →
    level ≤ array.storage.height →
      other / Window.lengthAt level ≠ segment / Window.lengthAt level →
        array.Fits other level

theorem Relaxed.relaxedBeside (h : array.Relaxed) (segment : Nat) :
    array.RelaxedBeside segment :=
  fun other hother level hlow hhigh _ => h other hother level hlow hhigh

theorem RelaxedBeside.relaxed (h : array.RelaxedBeside segment)
    (hsegment : ∀ level, 2 ≤ level → level ≤ array.storage.height →
      array.Fits segment level) : array.Relaxed := by
  intro other hother level hlow hhigh
  by_cases hsame :
      other / Window.lengthAt level = segment / Window.lengthAt level
  · exact (fits_congr hsame).mpr (hsegment level hlow hhigh)
  · exact h other hother level hlow hhigh hsame

theorem Fits.of_le {level : Nat} (h : array.Fits segment level)
    (hshape : SameShape array new)
    (hle : new.storage.occupied (Window.around segment level) ≤
      array.storage.occupied (Window.around segment level)) :
    new.Fits segment level := by
  rw [Fits, hshape.gauge_eq]
  exact Gauge.isOverfull_mono hle h

theorem Relaxed.of_filled_le (h : array.Relaxed) (hshape : SameShape array new)
    (hle : ∀ number, new.storage.filled number ≤ array.storage.filled number) :
    new.Relaxed := by
  intro other hother level hlow hhigh
  rw [hshape.segmentCount_eq] at hother
  rw [hshape.height_eq] at hhigh
  exact (h other hother level hlow hhigh).of_le hshape
    (Storage.occupied_le_occupied hle _)

theorem Relaxed.beside (h : array.Relaxed) (hshape : SameShape array new)
    (hsame : ∀ number, number ≠ segment →
      new.storage.filled number = array.storage.filled number) :
    new.RelaxedBeside segment := by
  intro other hother level hlow hhigh hapart
  rw [hshape.segmentCount_eq] at hother
  rw [hshape.height_eq] at hhigh
  exact (h other hother level hlow hhigh).of_apart hshape hsame hapart

variable [OrderIndex ι] [LawfulIndex ι] {needsGap : Bool}

section SpreadOut

variable {level sub other : Nat}

theorem fits_spreadOut_inside (h : Consistent array)
    (hsegment : segment < array.storage.segmentCount)
    (hlevel : level ≤ array.storage.height)
    (hspreadable : array.gauge.isSpreadable level
      (array.storage.occupied (Window.around segment level)) = true)
    (hlow : 1 ≤ sub) (hsub : sub ≤ level)
    (hin : other / Window.lengthAt level = segment / Window.lengthAt level) :
    (array.spreadOut (Window.around segment level)).Fits other sub := by
  have hlength := Window.lengthAt_pos level
  have hwindow := h.exact.around_le hsegment hlevel
  obtain ⟨hstart, hend⟩ := Window.around_within hsub hin
  -- What the window gets is bounded by the share that the gauge has tried.
  have hshare := Storage.occupied_dealOut_le hlength hwindow
    (array.storage.partsOf (Window.around segment level)).flatten hstart hend
  rw [Fits, (sameShape_spreadOut h hsegment hlevel).gauge_eq]
  exact Gauge.isOverfull_mono hshare
    ((array.gauge.isSpreadable_iff _ _).mp hspreadable sub hlow hsub)

/-- A spread above all overfull windows mends the windows around a segment. -/
theorem relaxed_spreadOut (h : Consistent array)
    (hsegment : segment < array.storage.segmentCount)
    (hbeside : array.RelaxedBeside segment)
    (hlevel : level ≤ array.storage.height)
    (hsettles : array.gauge.settles (array.readings segment)
      (array.readingAt segment level) = true) :
    (array.spreadOut (Window.around segment level)).Relaxed := by
  have hshape := sameShape_spreadOut h hsegment hlevel
  intro other hother sub hlow hhigh
  rw [hshape.segmentCount_eq] at hother
  rw [hshape.height_eq] at hhigh
  have hapart := hbeside other hother sub hlow hhigh
  by_cases hin : other / Window.lengthAt level =
      segment / Window.lengthAt level ∧ sub ≤ level
  · exact fits_spreadOut_inside h hsegment hlevel
      ((array.gauge.settles_iff _ _).mp hsettles).1 (by omega) hin.2 hin.1
  · exact fits_spreadOut_beyond h hsegment hlevel hsettles hlow hhigh
      (fun hsame => by omega) hapart

end SpreadOut

theorem relaxed_grownUp (h : Consistent array)
    (hbounds : array.policy.thresholds.AllowHalf) :
    array.grownUp.Relaxed := by
  have hnew := (rearranges_grownUp h).consistent
  obtain ⟨half, hhalf⟩ := hnew.exact.shaped.two_dvd_segmentCapacity
  have hfilled (number : Nat) : array.grownUp.storage.filled number ≤ half := by
    have hle := two_mul_filled_grownUp_le h.exact number
    rw [hhalf] at hle
    exact Nat.le_of_mul_le_mul_left hle (by omega)
  intro other _ level _ _
  have hoccupied := Storage.occupied_le_mul hfilled (Window.around other level)
  rw [Window.around_length] at hoccupied
  apply Gauge.isOverfull_of_half hbounds hnew.exact.shaped.two_le_segmentCapacity
  change 2 * _ ≤ Window.lengthAt level * array.grownUp.storage.segmentCapacity
  rw [hhalf, Nat.mul_left_comm]
  omega

theorem Rebalancing.relaxed
    (h : Rebalancing array segment needsGap (.ok ()) new)
    (harray : Consistent array)
    (hsegment : segment < array.storage.segmentCount)
    (hbounds : array.policy.thresholds.AllowHalf)
    (hbeside : array.RelaxedBeside segment) : new.Relaxed := by
  cases h with
  | left hcrammed hrepair =>
      have hfits := ((array.gauge.repair_eq_leave_iff
        (climbing_readings array segment) _).mp hrepair).1
      refine hbeside.relaxed fun level hlow hhigh => ?_
      exact hfits _ (mem_readings.mpr ⟨level, hlow, hhigh, rfl⟩)
  | spread hcrammed hlow hhigh hsettles =>
      exact relaxed_spreadOut harray hsegment hbeside hhigh hsettles
  | grown => exact relaxed_grownUp harray hbounds

variable {number : Nat}

theorem Places.relaxedBeside {segment : Segment} {entry : Entry}
    (h : Places number segment entry array new) (harray : Consistent array)
    (hrelaxed : array.Relaxed) : new.RelaxedBeside number := by
  refine hrelaxed.beside (h.sameShape harray) fun other hother => ?_
  rw [h.filled_eq, if_neg hother, Nat.add_zero]

theorem TakesOut.relaxed {offset : Nat} {segment : Segment} {entry : Entry}
    (h : TakesOut number offset segment entry array new)
    (harray : Consistent array) (hrelaxed : array.Relaxed) : new.Relaxed :=
  hrelaxed.of_filled_le (h.sameShape harray) h.filled_le

theorem keptUp_relaxed {policy : Policy Rat}
    (hbounds : policy.thresholds.AllowHalf) :
    KeptUp (ι := ι) (fun array => array.policy = policy ∧ array.Relaxed)
      fun array segment =>
        array.policy = policy ∧ array.RelaxedBeside segment where
  beside segment h := ⟨h.1, h.2.relaxedBeside segment⟩
  placed hplaces harray h :=
    ⟨hplaces.policy_eq.trans h.1, hplaces.relaxedBeside harray h.2⟩
  restored hrebalancing harray hsegment h :=
    ⟨(hrebalancing.rearranges harray hsegment).policy_eq.trans h.1,
      hrebalancing.relaxed harray hsegment (h.1 ▸ hbounds) h.2⟩
  relieved _ hshape hle h :=
    ⟨hshape.policy_eq.trans h.1, h.2.of_filled_le hshape hle⟩

/-! ## Histories -/

omit [LawfulIndex ι] in
theorem relaxed_blank {policy : Policy Rat} {capacity : Nat}
    (husable : isUsableCapacity capacity = true)
    (hbounds : policy.thresholds.AllowHalf) :
    (blank policy capacity : PackedArray Rat ι).Relaxed := by
  intro other _ level _ _
  have hblank : (blank policy capacity : PackedArray Rat ι).storage.occupied
      (Window.around other level) = 0 := Storage.occupied_blank _ _
  rw [Fits, hblank]
  exact Gauge.isOverfull_of_half hbounds
    (Storage.exact_blank husable).shaped.two_le_segmentCapacity (Nat.zero_le _)

theorem allowHalf_of_validate {config : Config Rat} {capacity : Nat}
    (hroot : 1 / 2 ≤ config.thresholds.rootUpper)
    (h : config.validate = .ok capacity) :
    config.policy.thresholds.AllowHalf := by
  obtain ⟨haccepted, -⟩ := (config.validate_eq_ok_iff capacity).mp h
  have hsound := Thresholds.validate_eq_ok_iff_sound.mp haccepted
  exact ⟨hroot, hsound.rootUpper_le_leafUpper⟩

structure Bounded (config : Config Rat) (array : PackedArray Rat ι) : Prop where
  consistent : Consistent array
  relaxed : array.Relaxed
  policy_eq : array.policy = config.policy
  allowHalf : array.policy.thresholds.AllowHalf

theorem Reachable.bounded {config : Config Rat}
    (hroot : 1 / 2 ≤ config.thresholds.rootUpper)
    (h : Reachable config array) : Bounded config array := by
  obtain ⟨capacity, hvalidate⟩ := h.exists_validate
  have hbounds := allowHalf_of_validate hroot hvalidate
  have hcreate (array : PackedArray Rat ι) (h : ofConfig config = .ok array) :
      array.policy = config.policy ∧ array.Relaxed := by
    obtain ⟨capacity, -, husable, rfl⟩ := exists_of_ofConfig h
    exact ⟨rfl, relaxed_blank husable hbounds⟩
  obtain ⟨hpolicy, hrelaxed⟩ := (keptUp_relaxed hbounds).reachable hcreate h
  exact ⟨h.consistent, hrelaxed, hpolicy, hpolicy ▸ hbounds⟩

theorem Bounded.window_le {config : Config Rat} (h : Bounded config array)
    {level start : Nat} (hlow : 2 ≤ level)
    (hhigh : level ≤ array.storage.height)
    (haligned : Window.lengthAt level ∣ start)
    (hend : start + Window.lengthAt level ≤ array.storage.segmentCount) :
    array.storage.occupied ⟨start, Window.lengthAt level⟩ ≤
        Window.lengthAt level * (array.storage.segmentCapacity - 1) ∧
      (Quantity.ratio (array.storage.occupied ⟨start, Window.lengthAt level⟩)
          (Window.lengthAt level * array.storage.segmentCapacity) : Rat) ≤
        (config.thresholds.atLevel level array.storage.height).upper := by
  have hlength := Window.lengthAt_pos level
  have hfits := h.relaxed start (by omega) level hlow hhigh
  rw [Fits, Window.around_of_dvd haligned, Gauge.isOverfull_eq_false_iff_le,
    gauge, h.policy_eq] at hfits
  exact ⟨hfits.1, hfits.2 (by omega)⟩

theorem Bounded.size_lt_capacity {config : Config Rat}
    (h : Bounded config array) : array.size < array.capacity := by
  have hexact := h.consistent.exact
  have hcount := hexact.length_whole_pos
  exact (h.relaxed 0 hcount _ hexact.two_le_height
    (Nat.le_refl _)).size_lt_capacity hexact hcount

/-- No aligned window of a reachable array is denser than its level allows. -/
theorem density_le_upper {config : Config Rat}
    (hroot : 1 / 2 ≤ config.thresholds.rootUpper)
    (h : Reachable config array) :
    (∀ level start, 2 ≤ level → level ≤ array.storage.height →
      Window.lengthAt level ∣ start →
      start + Window.lengthAt level ≤ array.storage.segmentCount →
      ∃ elements density,
        array.storage.elements ⟨start, Window.lengthAt level⟩ = .ok elements ∧
        array.storage.density Rat ⟨start, Window.lengthAt level⟩ =
          .ok density ∧
        elements ≤ Window.lengthAt level * (array.storage.segmentCapacity - 1) ∧
        density ≤
          (config.thresholds.atLevel level array.storage.height).upper) ∧
      array.size < array.capacity := by
  have hbounded := h.bounded hroot
  refine ⟨?_, hbounded.size_lt_capacity⟩
  intro level start hlow hhigh haligned hend
  obtain ⟨hcount, hdensity⟩ := hbounded.window_le hlow hhigh haligned hend
  have helements : array.storage.elements ⟨start, Window.lengthAt level⟩ =
      .ok _ := hbounded.consistent.exact.elements_eq hend
  refine ⟨_, _, helements, ?_, hcount, hdensity⟩
  rw [Storage.density, helements]
  rfl

theorem density_of_sixEntries :
    1 / 2 ≤ eightSlots.thresholds.rootUpper ∧
      ((∃ elements density,
        (sixEntries SortedIndex).storage.elements ⟨0, 2⟩ = .ok elements ∧
        (sixEntries SortedIndex).storage.density Rat ⟨0, 2⟩ = .ok density ∧
        elements ≤
          2 * ((sixEntries SortedIndex).storage.segmentCapacity - 1) ∧
        density ≤ (eightSlots.thresholds.atLevel 2
          (sixEntries SortedIndex).storage.height).upper) ∧
      (sixEntries SortedIndex).size < (sixEntries SortedIndex).capacity) ∧
      (∃ elements density,
        (sixEntries TreeIndex).storage.elements ⟨0, 2⟩ = .ok elements ∧
        (sixEntries TreeIndex).storage.density Rat ⟨0, 2⟩ = .ok density ∧
        elements ≤
          2 * ((sixEntries TreeIndex).storage.segmentCapacity - 1) ∧
        density ≤ (eightSlots.thresholds.atLevel 2
          (sixEntries TreeIndex).storage.height).upper) ∧
      (sixEntries TreeIndex).size < (sixEntries TreeIndex).capacity := by
  have hroot : 1 / 2 ≤ eightSlots.thresholds.rootUpper := by decide +kernel
  obtain ⟨hsorted, hsortedSize⟩ :=
    density_le_upper hroot (reachable_sixEntries (ι := SortedIndex))
  obtain ⟨htree, htreeSize⟩ :=
    density_le_upper hroot (reachable_sixEntries (ι := TreeIndex))
  exact ⟨hroot,
    ⟨hsorted 2 0 (by decide) (by decide +kernel) (by decide) (by decide +kernel),
      hsortedSize⟩,
    htree 2 0 (by decide) (by decide +kernel) (by decide) (by decide +kernel),
    htreeSize⟩

end PackedArray

end PackedMemory
