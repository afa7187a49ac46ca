import PackedMemory.Proofs.PackedArray.Repair
import PackedMemory.Proofs.Update

/-!
# Rebalancing

Rebalancing reads the windows around a segment and carries out the repair that
the gauge decides on.
-/

namespace PackedMemory

theorem mapM_eq_ok {α β : Type} {step : α → Except Fault β} {image : α → β}
    {items : List α} (h : ∀ item ∈ items, step item = .ok (image item)) :
    items.mapM step = .ok (items.map image) := by
  induction items with
  | nil => rfl
  | cons item items ih =>
      rw [List.mapM_cons, h item List.mem_cons_self,
        ih fun other hother => h other (List.mem_cons_of_mem _ hother)]
      rfl

namespace PackedArray

variable {ρ ι : Type} [Quantity ρ]

def readingAt (array : PackedArray ρ ι) (segment level : Nat) : Reading :=
  let window := Window.around segment level
  let elements := array.storage.occupied window
  { level, window, elements
    overfull := array.gauge.isOverfull level elements }

def readings (array : PackedArray ρ ι) (segment : Nat) : List Reading :=
  (List.range' 2 (array.storage.height - 1)).map (array.readingAt segment)

theorem mem_readings {array : PackedArray ρ ι} {segment : Nat}
    {reading : Reading} :
    reading ∈ array.readings segment ↔
      ∃ level, 2 ≤ level ∧ level ≤ array.storage.height ∧
        reading = array.readingAt segment level := by
  simp only [readings, List.mem_map, List.mem_range'_1]
  constructor
  · rintro ⟨level, ⟨hlow, hhigh⟩, rfl⟩
    exact ⟨level, hlow, by omega, rfl⟩
  · rintro ⟨level, hlow, hhigh, rfl⟩
    exact ⟨level, ⟨hlow, by omega⟩, rfl⟩

theorem climbing_readings (array : PackedArray ρ ι) (segment : Nat) :
    Gauge.Climbing (array.readings segment) := by
  constructor
  · rw [readings, List.pairwise_map]
    exact List.pairwise_lt_range'
  · intro reading hreading
    obtain ⟨level, hlow, -, rfl⟩ := mem_readings.mp hreading
    exact hlow

theorem measure_eq {array : PackedArray ρ ι} (h : array.storage.Exact)
    {segment : Nat} (hsegment : segment < array.storage.segmentCount) :
    array.measure segment = .ok (array.readings segment) := by
  apply mapM_eq_ok
  intro level hlevel
  obtain ⟨hlow, hhigh⟩ := List.mem_range'_1.mp hlevel
  have hheight : level ≤ array.storage.height := by omega
  simp only [h.elements_eq (h.around_le hsegment hheight), bind, Except.bind,
    pure, Except.pure, readingAt]

/-! ## The window that is spread -/

section Settling

variable {array : PackedArray ρ ι} {segment : Nat}

theorem isLeast_of_find?_readings {accepts : Reading → Bool}
    {reading : Reading}
    (h : (array.readings segment).find? accepts = some reading) :
    ∃ level, reading = array.readingAt segment level ∧
      IsLeast {level | 2 ≤ level ∧ level ≤ array.storage.height ∧
        accepts (array.readingAt segment level) = true} level := by
  rw [readings, List.find?_map, Option.map_eq_some_iff] at h
  obtain ⟨level, hfind, rfl⟩ := h
  obtain ⟨haccepted, hmem, hlowest⟩ := List.find?_range'_eq_some.mp hfind
  obtain ⟨hlow, hhigh⟩ := List.mem_range'_1.mp hmem
  refine ⟨level, rfl, ⟨hlow, by omega, haccepted⟩, ?_⟩
  rintro other ⟨hother, -, haccepts⟩
  by_contra hlt
  have hpassed := hlowest other hother (Nat.not_le.mp hlt)
  rw [Function.comp_apply, haccepts] at hpassed
  contradiction

def settlingLevels (array : PackedArray ρ ι) (segment : Nat) : Set Nat :=
  {level | 2 ≤ level ∧ level ≤ array.storage.height ∧
    array.gauge.settles (array.readings segment)
      (array.readingAt segment level) = true}

/-- The window that is spread is the lowest that settles everything. -/
theorem isLeast_of_repair {needsGap : Bool} {window : Window}
    (h : array.repair segment (array.readings segment) needsGap =
      .spread window) :
    ∃ level, window = Window.around segment level ∧
      IsLeast (array.settlingLevels segment) level := by
  obtain ⟨reading, hfind, rfl⟩ :=
    array.gauge.find?_of_repair_eq_spread (climbing_readings array segment) h
  obtain ⟨level, rfl, hlevel⟩ := isLeast_of_find?_readings hfind
  exact ⟨level, rfl, hlevel⟩

end Settling

/-! ## Outcomes -/

variable [OrderIndex ι]

theorem filled_spreadOut_lt {array : PackedArray ρ ι}
    (h : array.storage.Exact) {segment level number : Nat}
    (hsegment : segment < array.storage.segmentCount) (hlow : 2 ≤ level)
    (hhigh : level ≤ array.storage.height)
    (hsettles : array.gauge.settles (array.readings segment)
      (array.readingAt segment level) = true)
    (hstart : (Window.around segment level).start ≤ number)
    (hend : number < (Window.around segment level).start +
      (Window.around segment level).length) :
    (array.spreadOut (Window.around segment level)).storage.filled number <
      array.storage.segmentCapacity := by
  have hslots := h.shaped.two_le_segmentCapacity
  have hspreadable := ((array.gauge.settles_iff _ _).mp hsettles).1
  rw [Storage.filled, List.getD_eq_getElem?_getD]
  cases hpart : (array.spreadOut
      (Window.around segment level)).storage.parts[number]? with
  | none => exact Nat.zero_lt_of_lt hslots
  | some part =>
      have hshare := array.gauge.share_le_of_isSpreadable hspreadable
        (Nat.le_of_succ_le hlow)
        (length_mem_shares (Window.lengthAt_pos level)
          (h.around_le hsegment hhigh) hstart hend hpart)
      change part.length ≤ array.storage.segmentCapacity - 1 at hshare
      change part.length < array.storage.segmentCapacity
      omega

def carryOut : Repair → Update (PackedArray ρ ι) Unit
  | .leave => return ()
  | .spread window => spread window
  | .grow => grow

theorem run_rebalance_of_isCrammed {array : PackedArray ρ ι}
    (h : array.isCrammed = true) (segment : Nat) (needsGap : Bool) :
    Update.run (rebalance segment needsGap) array = Update.run grow array := by
  simp only [rebalance, Update.run_bind, Update.run_view, h, if_true]

theorem run_rebalance {array : PackedArray ρ ι} (h : array.storage.Exact)
    (hcrammed : array.isCrammed = false) {segment : Nat}
    (hsegment : segment < array.storage.segmentCount) (needsGap : Bool) :
    Update.run (rebalance segment needsGap) array =
      Update.run (carryOut (array.repair segment (array.readings segment)
        needsGap)) array := by
  simp only [rebalance, Update.run_bind, Update.run_view, hcrammed,
    Bool.false_eq_true, if_false, Update.run_ask, measure_eq h hsegment,
    Update.run_emit]
  cases array.repair segment (array.readings segment) needsGap <;> rfl

inductive Rebalancing (array : PackedArray ρ ι) (segment : Nat)
    (needsGap : Bool) : Except Fault Unit → PackedArray ρ ι → Prop
  | left (hcrammed : array.isCrammed = false)
      (hrepair : array.repair segment (array.readings segment) needsGap =
        .leave) :
      Rebalancing array segment needsGap (.ok ()) array
  | spread {level : Nat} (hcrammed : array.isCrammed = false)
      (hlow : 2 ≤ level)
      (hhigh : level ≤ array.storage.height)
      (hsettles : array.gauge.settles (array.readings segment)
        (array.readingAt segment level) = true) :
      Rebalancing array segment needsGap (.ok ())
        (array.spreadOut (Window.around segment level))
  | grown (hcause : array.isCrammed = true ∨
        array.repair segment (array.readings segment) needsGap = .grow)
      (hgrow : array.CanGrow) :
      Rebalancing array segment needsGap (.ok ()) array.grownUp
  | refused (hcause : array.isCrammed = true ∨
        array.repair segment (array.readings segment) needsGap = .grow)
      (hgrow : ¬array.CanGrow) :
      Rebalancing array segment needsGap
        (.error (.allocationFailure (2 * array.capacity))) array

variable {array new : PackedArray ρ ι} {segment : Nat} {needsGap : Bool}
  {result : Except Fault Unit}

theorem Rebalancing.result_eq
    (h : Rebalancing array segment needsGap result new) :
    result = .ok () ∨
      result = .error (.allocationFailure (2 * array.capacity)) := by
  cases h with
  | left => exact .inl rfl
  | spread => exact .inl rfl
  | grown => exact .inl rfl
  | refused => exact .inr rfl

theorem Rebalancing.eq_of_error {fault : Fault}
    (h : Rebalancing array segment needsGap (.error fault) new) :
    fault = .allocationFailure (2 * array.capacity) ∧ new = array := by
  cases h
  exact ⟨rfl, rfl⟩

theorem Rebalancing.error_iff {fault : Fault}
    (h : Rebalancing array segment needsGap result new) :
    result = .error fault ↔
      fault = .allocationFailure (2 * array.capacity) ∧
        (array.isCrammed = true ∨
          array.repair segment (array.readings segment) needsGap = .grow) ∧
          ¬array.CanGrow := by
  constructor
  · rintro rfl
    cases h with
    | refused hcause hgrow => exact ⟨rfl, hcause, hgrow⟩
  · rintro ⟨rfl, hcause, hgrow⟩
    cases h with
    | refused => rfl
    | grown _ hcan => exact absurd hcan hgrow
    | left hcrammed hrepair =>
        rw [hcrammed, hrepair] at hcause
        simp at hcause
    | spread hcrammed hlow hhigh hsettles =>
        have hgrows := hcause.resolve_left (by rw [hcrammed]; decide)
        have hunsettled := ((array.gauge.repair_eq_grow_iff
          (climbing_readings array segment) _).mp hgrows).2 _
            (mem_readings.mpr ⟨_, hlow, hhigh, rfl⟩)
        rw [hsettles] at hunsettled
        contradiction

theorem rebalancing_grow (h : array.storage.Exact)
    (hcause : array.isCrammed = true ∨
      array.repair segment (array.readings segment) needsGap = .grow) :
    ∃ result new, Update.run grow array = (result, new) ∧
      Rebalancing array segment needsGap result new := by
  by_cases hgrow : array.CanGrow
  · obtain ⟨events, heq⟩ := grow_of_canGrow (usable_double h)
      (length_entries_le_blank h) hgrow
    exact ⟨_, _, Update.run_of_eq heq, .grown hcause hgrow⟩
  · have heq := grow_of_not_canGrow (usable_double h) hgrow
    exact ⟨_, _, Update.run_of_eq heq, .refused hcause hgrow⟩

theorem rebalancing (h : array.storage.Exact)
    (hsegment : segment < array.storage.segmentCount) (needsGap : Bool) :
    ∃ result new, Update.run (rebalance segment needsGap) array =
      (result, new) ∧ Rebalancing array segment needsGap result new := by
  cases hcrammed : array.isCrammed with
  | true =>
      rw [run_rebalance_of_isCrammed hcrammed]
      exact rebalancing_grow h (.inl hcrammed)
  | false =>
      rw [run_rebalance h hcrammed hsegment]
      cases hrepair : array.repair segment (array.readings segment) needsGap with
      | leave => exact ⟨_, _, rfl, .left hcrammed hrepair⟩
      | grow => exact rebalancing_grow h (.inr hrepair)
      | spread window =>
          obtain ⟨level, rfl, ⟨hlow, hhigh, hsettles⟩, -⟩ :=
            isLeast_of_repair hrepair
          have heq := spread_eq h (Window.lengthAt_pos level)
            (h.around_le hsegment hhigh)
          exact ⟨_, _, Update.run_of_eq heq, .spread hcrammed hlow hhigh hsettles⟩

omit [Quantity ρ] in
theorem capacity_of_run_grow (h : array.storage.Exact)
    (hrun : Update.run grow array = (.ok (), new)) :
    new.capacity = 2 * array.capacity := by
  by_cases hgrow : array.CanGrow
  · obtain ⟨events, heq⟩ := grow_of_canGrow (usable_double h)
      (length_entries_le_blank h) hgrow
    rw [Update.run_of_eq heq, Prod.mk.injEq] at hrun
    rw [← hrun.2, capacity_grownUp h]
  · rw [Update.run, grow_of_not_canGrow (usable_double h) hgrow] at hrun
    simp at hrun

theorem eq_of_run_rebalance (h : array.storage.Exact)
    (hsegment : segment < array.storage.segmentCount)
    (hrun : Update.run (rebalance segment needsGap) array = (.ok (), new))
    (hcapacity : new.capacity = array.capacity) :
    (array.repair segment (array.readings segment) needsGap = .leave ∧
        new = array) ∨
      array.repair segment (array.readings segment) needsGap ≠ .leave ∧
        ∃ level, IsLeast (array.settlingLevels segment) level ∧
          new = array.spreadOut (Window.around segment level) := by
  have hgrown (hgrow : Update.run grow array = (.ok (), new)) : False := by
    have hpositive : 0 < array.capacity := h.capacity_pos
    have hdouble := capacity_of_run_grow h hgrow
    omega
  cases hcrammed : array.isCrammed with
  | true =>
      rw [run_rebalance_of_isCrammed hcrammed] at hrun
      exact (hgrown hrun).elim
  | false =>
      rw [run_rebalance h hcrammed hsegment] at hrun
      cases hrepair : array.repair segment (array.readings segment) needsGap with
      | leave =>
          rw [hrepair] at hrun
          exact .inl ⟨rfl, (Prod.mk.inj hrun).2.symm⟩
      | spread window =>
          rw [hrepair] at hrun
          obtain ⟨level, rfl, hlevel⟩ := isLeast_of_repair hrepair
          have heq := spread_eq h (Window.lengthAt_pos level)
            (h.around_le hsegment hlevel.1.2.1)
          rw [carryOut, Update.run_of_eq heq] at hrun
          exact .inr ⟨by simp, level, hlevel, (Prod.mk.inj hrun).2.symm⟩
      | grow =>
          rw [hrepair] at hrun
          exact (hgrown hrun).elim

theorem Rebalancing.rearranges [LawfulIndex ι]
    (h : Rebalancing array segment needsGap result new)
    (harray : Consistent array)
    (hsegment : segment < array.storage.segmentCount) :
    Rearranges array new := by
  cases h with
  | left => exact .refl harray
  | spread hcrammed hlow hhigh hsettles =>
      exact rearranges_spreadOut harray (Window.lengthAt_pos _)
        (harray.exact.around_le hsegment hhigh)
  | grown => exact rearranges_grownUp harray
  | refused => exact .refl harray

end PackedArray

end PackedMemory
