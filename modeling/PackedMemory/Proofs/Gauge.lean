import PackedMemory.Gauge
import PackedMemory.Shares.Lemmas

/-!
# Decisions of the gauge

The repair that a gauge decides on is the lowest spreadable window above every
window that is overfull.  Whether a window is spreadable is known from the
largest shares alone, since no window inside it gets more elements than its
first segments do.
-/

namespace PackedMemory

namespace Window

@[simp] theorem lengthAt_one : lengthAt 1 = 1 := rfl

theorem lengthAt_pos (level : Nat) : 0 < lengthAt level :=
  Nat.two_pow_pos (level - 1)

theorem lengthAt_dvd {low high : Nat} (h : low ≤ high) :
    lengthAt low ∣ lengthAt high :=
  Nat.pow_dvd_pow 2 (by omega)

end Window

theorem sum_run_shares_le (count length start run : Nat) :
    (((shares count length).drop start).take run).sum ≤
      run * (count / length) + min run (count % length) := by
  have hrange (first : Nat) :
      ((List.range' first run).map fun position =>
        count / length + if position < count % length then 1 else 0).sum ≤
        run * (count / length) + min run (count % length - first) := by
    induction run generalizing first with
    | zero => simp
    | succ run ih =>
        rw [List.range'_succ, List.map_cons, List.sum_cons, Nat.succ_mul]
        have hrest := ih (first + 1)
        split <;> omega
  have hsub : (((shares count length).drop start).take run).Sublist
      ((List.range' start run).map fun position =>
        count / length + if position < count % length then 1 else 0) := by
    rw [shares, List.range_eq_range', ← List.map_drop, ← List.map_take]
    refine List.Sublist.map _ ?_
    rw [List.drop_range', Nat.zero_add, Nat.mul_one]
    rcases Nat.le_total run (length - start) with hrun | hrun
    · rw [List.take_range'_of_length_ge hrun]
    · rw [List.take_range'_of_length_le hrun]
      exact List.range'_sublist_right.mpr hrun
  have hsum := hsub.sum_le_sum fun _ _ => Nat.zero_le _
  have hrun := hrange start
  omega

theorem largestShare_self (level elements : Nat) :
    largestShare level level elements = elements := by
  have hrest := Nat.mod_lt elements (Window.lengthAt_pos level)
  rw [largestShare, Nat.min_eq_right hrest.le]
  exact Nat.div_add_mod _ _

theorem largestShare_le {level elements share : Nat}
    (h : elements ≤ Window.lengthAt level * share) (sub : Nat) :
    largestShare level sub elements ≤ Window.lengthAt sub * share := by
  have hquotient : elements / Window.lengthAt level ≤ share :=
    Nat.div_le_of_le_mul h
  have hwhole := Nat.div_add_mod elements (Window.lengthAt level)
  simp only [largestShare]
  rcases Nat.eq_zero_or_pos (elements % Window.lengthAt level) with hrest | hrest
  · rw [hrest, Nat.min_zero, Nat.add_zero]
    exact Nat.mul_le_mul_left _ hquotient
  · have hless : elements / Window.lengthAt level ≠ share := by
      intro hequal
      rw [hequal] at hwhole
      omega
    calc
      _ ≤ Window.lengthAt sub * (elements / Window.lengthAt level) +
          Window.lengthAt sub := Nat.add_le_add_left (Nat.min_le_left _ _) _
      _ = Window.lengthAt sub * (elements / Window.lengthAt level + 1) :=
          (Nat.mul_succ _ _).symm
      _ ≤ Window.lengthAt sub * share := Nat.mul_le_mul_left _ (by omega)

namespace Gauge

variable {ρ : Type} [Quantity ρ] (gauge : Gauge ρ)

/-! ## Bounds -/

theorem isOverfull_eq_false_iff (level elements : Nat) :
    gauge.isOverfull level elements = false ↔
      elements ≤ Window.lengthAt level * (gauge.segmentCapacity - 1) ∧
        (level ≠ 1 →
          Quantity.lt (gauge.thresholds.atLevel level gauge.height).upper
            (Quantity.ratio elements
              (Window.lengthAt level * gauge.segmentCapacity)) = false) := by
  simp only [isOverfull]
  split
  · rename_i hcount
    simp only [Bool.true_eq_false, false_iff, not_and_or]
    exact .inl (by omega)
  · rename_i hcount
    split
    · rename_i hleaf
      exact iff_of_true rfl ⟨by omega, absurd hleaf⟩
    · rename_i hleaf
      exact ⟨fun hdensity => ⟨by omega, fun _ => hdensity⟩,
        fun hbounds => hbounds.2 hleaf⟩

theorem isSpreadable_iff (level elements : Nat) :
    gauge.isSpreadable level elements = true ↔
      ∀ sub, 1 ≤ sub → sub ≤ level →
        gauge.isOverfull sub (largestShare level sub elements) = false := by
  simp only [isSpreadable, List.all_eq_true, List.mem_range'_1,
    Bool.not_eq_true']
  constructor
  · intro h sub hlow hhigh
    exact h sub ⟨hlow, by omega⟩
  · rintro h sub ⟨hlow, hhigh⟩
    exact h sub hlow (by omega)

/-- A spread leaves a gap in every segment. -/
theorem share_le_of_isSpreadable {level elements share : Nat}
    (h : gauge.isSpreadable level elements = true) (hlevel : 1 ≤ level)
    (hshare : share ∈ shares elements (Window.lengthAt level)) :
    share ≤ gauge.segmentCapacity - 1 := by
  obtain ⟨position, hposition⟩ := List.mem_iff_getElem?.mp hshare
  obtain ⟨hlength, rfl⟩ := List.getElem?_eq_some_iff.mp hposition
  have hleaf := (gauge.isSpreadable_iff level elements).mp h 1 (Nat.le_refl 1)
    hlevel
  have hbound := ((gauge.isOverfull_eq_false_iff _ _).mp hleaf).1
  have hsum := sum_run_shares_le elements (Window.lengthAt level) position 1
  rw [List.drop_eq_getElem_cons hlength, List.take_succ_cons, List.take_zero,
    List.sum_singleton] at hsum
  simp only [largestShare, Window.lengthAt_one] at hbound
  omega

theorem isSpreadable_pair {elements : Nat}
    (h : gauge.isOverfull 2 elements = false) :
    gauge.isSpreadable 2 elements = true := by
  rw [isSpreadable_iff]
  intro sub hlow hhigh
  obtain rfl | rfl : sub = 1 ∨ sub = 2 := by omega
  · have hcount := ((gauge.isOverfull_eq_false_iff _ _).mp h).1
    have htwo : Window.lengthAt 2 = 2 := rfl
    rw [htwo] at hcount
    rw [isOverfull_eq_false_iff, largestShare, htwo, Window.lengthAt_one]
    exact ⟨by omega, fun hleaf => absurd rfl hleaf⟩
  · rwa [largestShare_self]

/-! ## Repairs -/

/-- Whether a spread of a window puts everything right. -/
def settles (readings : List Reading) (reading : Reading) : Bool :=
  gauge.isSpreadable reading.level reading.elements &&
    readings.all fun other => !other.overfull || other.level < reading.level

theorem settles_iff (readings : List Reading) (reading : Reading) :
    gauge.settles readings reading = true ↔
      gauge.isSpreadable reading.level reading.elements = true ∧
        ∀ other ∈ readings, other.overfull = true →
          other.level < reading.level := by
  rw [settles, Bool.and_eq_true, List.all_eq_true]
  refine and_congr_right fun _ => forall₂_congr fun other _ => ?_
  cases other.overfull <;> simp

def Climbing (readings : List Reading) : Prop :=
  readings.Pairwise (fun lower higher => lower.level < higher.level) ∧
    ∀ reading ∈ readings, 2 ≤ reading.level

theorem highestOverfull_eq_none_iff (readings : List Reading) :
    highestOverfull readings = none ↔
      ∀ reading ∈ readings, reading.overfull = false := by
  simp [highestOverfull]

theorem le_of_highestOverfull {readings : List Reading} {level : Nat}
    (hclimbing : Climbing readings)
    (h : highestOverfull readings = some level) :
    ∀ reading, (∀ other ∈ readings,
      other.overfull = true → other.level < reading) ↔ level < reading := by
  obtain ⟨highest, hhighest, rfl⟩ := Option.map_eq_some_iff.mp h
  have hmem := List.mem_filter.mp (List.mem_of_getLast? hhighest)
  obtain ⟨before, hbefore⟩ := List.getLast?_eq_some_iff.mp hhighest
  have hsorted := hclimbing.1.filter Reading.overfull
  rw [hbefore] at hsorted
  intro level
  constructor
  · intro hall
    exact hall highest hmem.1 hmem.2
  · intro hlevel other hother hoverfull
    have hin : other ∈ before ++ [highest] :=
      hbefore ▸ List.mem_filter.mpr ⟨hother, hoverfull⟩
    rcases List.mem_append.mp hin with hin | hin
    · have hlt := (List.pairwise_append.mp hsorted).2.2 other hin highest
        List.mem_cons_self
      omega
    · rw [List.mem_singleton.mp hin]
      exact hlevel

theorem find?_from_level {readings : List Reading} {least : Nat}
    (h : ∀ reading ∈ readings, (∀ other ∈ readings,
      other.overfull = true → other.level < reading.level) ↔
        least ≤ reading.level) :
    (readings.find? fun reading => decide (least ≤ reading.level) &&
      gauge.isSpreadable reading.level reading.elements) =
        readings.find? (gauge.settles readings) := by
  apply List.find?_congr
  intro reading hreading
  rw [Bool.eq_iff_iff, gauge.settles_iff, h reading hreading,
    Bool.and_eq_true, decide_eq_true_iff, and_comm]

/-- The lowest window that settles everything is spread. -/
theorem repair_eq {readings : List Reading} (hclimbing : Climbing readings)
    (needsGap : Bool) :
    gauge.repair readings needsGap =
      if (∀ reading ∈ readings, reading.overfull = false) ∧ needsGap = false then
        .leave
      else
        (readings.find? (gauge.settles readings)).elim .grow fun reading =>
          .spread reading.window := by
  cases hhighest : highestOverfull readings with
  | none =>
      have hnone := (highestOverfull_eq_none_iff readings).mp hhighest
      cases needsGap with
      | false =>
          rw [if_pos ⟨hnone, rfl⟩]
          simp [repair, hhighest]
      | true =>
          simp only [repair, hhighest, if_true, Bool.true_eq_false, and_false,
            if_false]
          rw [@find?_from_level _ _ gauge readings 2]
          · cases readings.find? (gauge.settles readings) <;> rfl
          · intro reading hreading
            refine iff_of_true ?_ (hclimbing.2 reading hreading)
            intro other hother hoverfull
            rw [hnone other hother] at hoverfull
            contradiction
  | some level =>
      have hsome : ¬∀ reading ∈ readings, reading.overfull = false := by
        rw [← highestOverfull_eq_none_iff, hhighest]
        simp
      simp only [repair, hhighest]
      rw [if_neg (not_and_of_not_left _ hsome),
        @find?_from_level _ _ gauge readings (level + 1)]
      · cases readings.find? (gauge.settles readings) <;> rfl
      · intro reading _
        exact le_of_highestOverfull hclimbing hhighest reading.level

theorem repair_eq_leave_iff {readings : List Reading}
    (hclimbing : Climbing readings) (needsGap : Bool) :
    gauge.repair readings needsGap = .leave ↔
      (∀ reading ∈ readings, reading.overfull = false) ∧
        needsGap = false := by
  rw [gauge.repair_eq hclimbing]
  split
  · exact iff_of_true rfl (by assumption)
  · cases readings.find? (gauge.settles readings) <;> simp_all

theorem repair_eq_grow_iff {readings : List Reading}
    (hclimbing : Climbing readings) (needsGap : Bool) :
    gauge.repair readings needsGap = .grow ↔
      ((∃ reading ∈ readings, reading.overfull = true) ∨ needsGap = true) ∧
        ∀ reading ∈ readings, gauge.settles readings reading = false := by
  rw [gauge.repair_eq hclimbing]
  split
  · rename_i hleave
    simp_all
  · rename_i hrepair
    have hcause : (∃ reading ∈ readings, reading.overfull = true) ∨
        needsGap = true := by
      grind
    cases hfind : readings.find? (gauge.settles readings) with
    | none => simpa [hcause] using List.find?_eq_none.mp hfind
    | some reading =>
        have hmem := List.mem_of_find?_eq_some hfind
        have hsettles := List.find?_some hfind
        simp only [Option.elim_some, reduceCtorEq, false_iff]
        intro hgrow
        rw [hgrow.2 reading hmem] at hsettles
        contradiction

theorem find?_of_repair_eq_spread {readings : List Reading}
    (hclimbing : Climbing readings) {needsGap : Bool} {window : Window}
    (h : gauge.repair readings needsGap = .spread window) :
    ∃ reading, readings.find? (gauge.settles readings) = some reading ∧
      reading.window = window := by
  rw [gauge.repair_eq hclimbing] at h
  split at h
  · contradiction
  · cases hfind : readings.find? (gauge.settles readings) with
    | none => simp [hfind] at h
    | some reading =>
        rw [hfind, Option.elim_some, Repair.spread.injEq] at h
        exact ⟨reading, rfl, h⟩

end Gauge

end PackedMemory
