import PackedMemory.Proofs.PackedArray.Check
import PackedMemory.Proofs.PackedArray.Density
import PackedMemory.Proofs.PackedArray.Room

/-!
# What rebalancing mends

With exact densities, whatever the bounds are: a repair that does not grow the
array leaves no window around the segment overfull and no window inside the one
that is spread, and it does not touch the rest.  A repair that is refused
changes nothing.
-/

namespace PackedMemory

namespace Window

def Inside (inner outer : Window) : Prop :=
  outer.start ≤ inner.start ∧
    inner.start + inner.length ≤ outer.start + outer.length

def Apart (first second : Window) : Prop :=
  first.start + first.length ≤ second.start ∨
    second.start + second.length ≤ first.start

theorem div_lengthAt_of_mem {segment level number : Nat}
    (hlow : (around segment level).start ≤ number)
    (hhigh : number < (around segment level).start +
      (around segment level).length) :
    number / lengthAt level = segment / lengthAt level := by
  rw [around_start] at hlow hhigh
  rw [around_length] at hhigh
  exact Nat.div_eq_of_lt_le hlow (by rwa [Nat.succ_mul])

theorem le_of_lengthAt_le {low high : Nat} (hlow : 1 ≤ low) (hhigh : 1 ≤ high)
    (h : lengthAt low ≤ lengthAt high) : low ≤ high := by
  have hexponent := (Nat.pow_le_pow_iff_right (Nat.lt_succ_self 1)).mp h
  omega

end Window

namespace PackedArray

variable {ρ ι : Type} [Quantity ρ] {array new : PackedArray ρ ι}
  {segment level start : Nat} {window : Window}

def WithinBounds (array : PackedArray ρ ι) (level : Nat) (window : Window) :
    Prop :=
  ∃ elements, array.storage.elements window = .ok elements ∧
    array.gauge.isOverfull level elements = false

theorem Fits.withinBounds (h : array.Fits segment level)
    (hexact : array.storage.Exact)
    (hwindow : (Window.around segment level).start +
      (Window.around segment level).length ≤ array.storage.segmentCount) :
    array.WithinBounds level (Window.around segment level) :=
  ⟨_, hexact.elements_eq hwindow, h⟩

theorem FitsAround.withinBounds (h : array.FitsAround segment)
    (hexact : array.storage.Exact)
    (hsegment : segment < array.storage.segmentCount) (hlow : 2 ≤ level)
    (hhigh : level ≤ array.storage.height) :
    array.WithinBounds level (Window.around segment level) :=
  (h level hlow hhigh).withinBounds hexact (hexact.around_le hsegment hhigh)

variable [OrderIndex ι]

structure Redistributes (window : Window) (old new : PackedArray ρ ι) :
    Prop where
  run_eq : Update.run (spread window) old = (.ok (), new)
  withinBounds : ∀ level start, 1 ≤ level → Window.lengthAt level ∣ start →
    Window.Inside ⟨start, Window.lengthAt level⟩ window →
      new.WithinBounds level ⟨start, Window.lengthAt level⟩
  hasGap : ∀ number segment, window.start ≤ number →
    number < window.start + window.length →
      new.storage.segments[number]? = some segment → none ∈ segment
  segment_eq : ∀ number,
    number < window.start ∨ window.start + window.length ≤ number →
      new.storage.segments[number]? = old.storage.segments[number]?
  elements_eq : ∀ other : Window, other.Apart window →
    new.storage.elements other = old.storage.elements other

omit [Quantity ρ] in
theorem elements_spreadOut (h : array.storage.Exact)
    (hlength : 0 < window.length)
    (hwindow : window.start + window.length ≤ array.storage.segmentCount)
    {other : Window} (hapart : other.Apart window) :
    (array.spreadOut window).storage.elements other =
      array.storage.elements other := by
  have hcount := array.segmentCount_spreadOut window
  by_cases hother : other.start + other.length ≤ array.storage.segmentCount
  · rw [h.elements_eq hother,
      (exact_spreadOut h hlength).elements_eq (hcount.symm ▸ hother),
      occupied_spreadOut_of_apart hwindow hapart]
  · rw [Storage.elements, Storage.elements, hcount, if_neg hother,
      if_neg hother]

section Exactly

variable {ι : Type} [OrderIndex ι] [LawfulIndex ι] {array : PackedArray Rat ι}

theorem redistributes_spreadOut (h : Consistent array)
    (hsegment : segment < array.storage.segmentCount) (hlow : 2 ≤ level)
    (hhigh : level ≤ array.storage.height)
    (hsettles : array.gauge.settles (array.readings segment)
      (array.readingAt segment level) = true) :
    Redistributes (Window.around segment level) array
      (array.spreadOut (Window.around segment level)) := by
  have hlength := Window.lengthAt_pos level
  have hwindow := h.exact.around_le hsegment hhigh
  have hnew : (array.spreadOut (Window.around segment level)).storage.Exact :=
    exact_spreadOut h.exact hlength
  have hcount := array.segmentCount_spreadOut (Window.around segment level)
  refine ⟨Update.run_of_eq (spread_eq h.exact hlength hwindow), ?_, ?_,
    fun number h => array.getElem?_spreadOut (Window.notMem_segments.mpr h),
    fun other => elements_spreadOut h.exact hlength hwindow⟩
  · rintro sub start hsub hdvd hinside
    -- An aligned window that lies inside is one of the windows below this one.
    have hsublength := Window.lengthAt_pos sub
    obtain ⟨hstart, hend⟩ := hinside
    simp only at hstart hend
    have hin := Window.div_lengthAt_of_mem hstart (by omega)
    have hle : sub ≤ level := by
      rw [Window.around_length] at hend
      exact Window.le_of_lengthAt_le hsub (by omega) (by omega)
    have haround := Window.around_of_dvd hdvd
    have hfits := fits_spreadOut_inside h hsegment hhigh
      ((array.gauge.settles_iff _ _).mp hsettles).1 hsub hle hin
    rw [← haround]
    refine hfits.withinBounds hnew ?_
    rw [haround, hcount]
    exact hend.trans hwindow
  · intro number after hstart hend hafter
    have hfilled := filled_spreadOut_lt h.exact hsegment hlow hhigh hsettles
      hstart hend
    rw [Storage.filled_eq hafter] at hfilled
    refine Segment.none_mem_of_length_lt (hfilled.trans_eq ?_)
    exact (hnew.length_segment after (Array.mem_of_getElem? hafter)).symm

/-! ## Rebalancing -/

variable {new : PackedArray Rat ι} {needsGap : Bool}
  {result : Except Fault Unit}

structure Mends (segment : Nat) (needsGap : Bool)
    (old new : PackedArray Rat ι) : Prop where
  withinBounds : ∀ level, 2 ≤ level → level ≤ new.storage.height →
    new.WithinBounds level (Window.around segment level)
  isFull_eq : needsGap = true → new.storage.isFull segment = false
  redistributes : new = old ∨ ∃ level, 2 ≤ level ∧
    level ≤ old.storage.height ∧
      Redistributes (Window.around segment level) old new

structure Restores (segment : Nat) (needsGap : Bool) (old : PackedArray Rat ι)
    (result : Except Fault Unit) (new : PackedArray Rat ι) : Prop where
  consistent : Consistent new
  entries_eq : new.storage.entries = old.storage.entries
  refused : ∀ fault, result = .error fault →
    fault = .allocationFailure (2 * old.capacity) ∧ ¬old.CanGrow ∧ new = old
  mends : result = .ok () → new.capacity = old.capacity →
    Mends segment needsGap old new
  doubled : new.capacity ≠ old.capacity →
    new.capacity = 2 * old.capacity ∧
      ∀ (number : Nat) (after : Segment),
        new.storage.segments[number]? = some after →
          2 * after.countP Option.isSome ≤ new.storage.segmentCapacity

theorem mends_of_leave (h : Consistent array)
    (hsegment : segment < array.storage.segmentCount)
    (hrepair : array.repair segment (array.readings segment) needsGap =
      .leave) : Mends segment needsGap array array := by
  obtain ⟨hfits, hgap⟩ := (array.gauge.repair_eq_leave_iff
    (climbing_readings array segment) _).mp hrepair
  refine ⟨fun level hlow hhigh => ?_, ?_, .inl rfl⟩
  · exact (fitsAround_iff.mpr hfits).withinBounds h.exact hsegment hlow hhigh
  · rintro rfl
    exact hgap

theorem mends_spreadOut (h : Consistent array)
    (hsegment : segment < array.storage.segmentCount) (hlow : 2 ≤ level)
    (hhigh : level ≤ array.storage.height)
    (hsettles : array.gauge.settles (array.readings segment)
      (array.readingAt segment level) = true) (needsGap : Bool) :
    Mends segment needsGap array
      (array.spreadOut (Window.around segment level)) := by
  have hshape := sameShape_spreadOut h hsegment hhigh
  have hnew : (array.spreadOut (Window.around segment level)).storage.Exact :=
    exact_spreadOut h.exact (Window.lengthAt_pos level)
  have hcount := hshape.segmentCount_eq ▸ hsegment
  refine ⟨fun sub hsub hheight => ?_, fun _ => ?_,
    .inr ⟨level, hlow, hhigh,
      redistributes_spreadOut h hsegment hlow hhigh hsettles⟩⟩
  · refine Fits.withinBounds ?_ hnew (hnew.around_le hcount hheight)
    rw [hshape.height_eq] at hheight
    -- Above the spread nothing was overfull, and up to it the shares are even.
    rcases Nat.lt_or_ge level sub with hbeyond | hinside
    · exact fits_spreadOut_beyond h hsegment hhigh hsettles hsub hheight
        (fun _ => hbeyond) (fun hapart => absurd rfl hapart)
    · exact fits_spreadOut_inside h hsegment hhigh
        ((array.gauge.settles_iff _ _).mp hsettles).1 (by omega) hinside rfl
  · have hfilled := filled_spreadOut_lt h.exact hsegment hlow hhigh hsettles
      (around_start_le segment level) (lt_around_end segment level)
    rw [Bool.eq_false_iff, ne_eq, hnew.isFull_iff hcount,
      hshape.segmentCapacity_eq]
    exact Nat.ne_of_lt hfilled

theorem Rebalancing.restores
    (h : Rebalancing array segment needsGap result new)
    (harray : Consistent array)
    (hsegment : segment < array.storage.segmentCount) :
    Restores segment needsGap array result new := by
  have hrearranges := h.rearranges harray hsegment
  refine ⟨hrearranges.consistent, hrearranges.entries_eq, ?_, ?_, ?_⟩
  · rintro fault rfl
    obtain ⟨hfault, -, hgrow⟩ := h.error_iff.mp rfl
    exact ⟨hfault, hgrow, h.eq_of_error.2⟩
  · intro hresult hcapacity
    cases h with
    | left hcrammed hrepair => exact mends_of_leave harray hsegment hrepair
    | spread hcrammed hlow hhigh hsettles =>
        exact mends_spreadOut harray hsegment hlow hhigh hsettles needsGap
    | grown =>
        rw [capacity_grownUp harray.exact] at hcapacity
        have hpositive := harray.exact.capacity_pos
        rw [← capacity] at hpositive
        omega
    | refused => contradiction
  · intro hcapacity
    cases h with
    | left => exact absurd rfl hcapacity
    | spread hcrammed hlow hhigh =>
        exact absurd (sameShape_spreadOut harray hsegment hhigh).capacity_eq
          hcapacity
    | grown =>
        refine ⟨capacity_grownUp harray.exact, fun number after hafter => ?_⟩
        rw [Segment.countP_isSome, ← Storage.filled_eq hafter]
        exact two_mul_filled_grownUp_le harray.exact number
    | refused => exact absurd rfl hcapacity

/-- Rebalancing mends the windows around a segment, doubles, or is refused. -/
theorem rebalance_restores (h : Consistent array)
    (hsegment : segment < array.storage.segmentCount) (needsGap : Bool) :
    Restores segment needsGap array (rebalance segment needsGap array).result
      (rebalance segment needsGap array).state := by
  obtain ⟨result, new, hrun, hrebalancing⟩ :=
    rebalancing h.exact hsegment needsGap
  obtain ⟨hresult, hstate⟩ := Prod.mk.inj hrun
  rw [hresult, hstate]
  exact hrebalancing.restores h hsegment

end Exactly

/-- Two full segments beside two empty ones, as no history leaves them. -/
def lopsidedStorage : Storage :=
  (Storage.blank 16).withSegments #[
    [some ⟨1, 10⟩, some ⟨2, 20⟩, some ⟨3, 30⟩, some ⟨4, 40⟩],
    [some ⟨5, 50⟩, some ⟨6, 60⟩, some ⟨7, 70⟩, some ⟨8, 80⟩],
    Segment.blank 4, Segment.blank 4]

def lopsided (ι : Type) [OrderIndex ι] : PackedArray Rat ι where
  storage := lopsidedStorage
  index := OrderIndex.insert (OrderIndex.insert OrderIndex.empty 1 0) 5 1
  policy := ⟨.default, 16, fun _ => true⟩

theorem ascending_lopsidedStorage :
    Ascending Entry.key lopsidedStorage.entries := by
  unfold Ascending
  decide +kernel

theorem consistent_lopsided {ι : Type} [OrderIndex ι] [LawfulIndex ι]
    (hindex : OrderIndex.entries (lopsided ι).index = [(1, 0), (5, 1)]) :
    Consistent (lopsided ι) where
  exact := (Storage.exact_blank (by decide +kernel)).withSegments
    (by decide +kernel) (by decide +kernel)
  ascending := ascending_lopsidedStorage
  valid := OrderIndex.Built.valid (.inserted (.inserted .empty 1 0) 5 1)
  index_eq := hindex

theorem lopsided_mended :
    Mends 1 false (lopsided SortedIndex)
        (rebalance 1 false (lopsided SortedIndex)).state ∧
      Mends 1 false (lopsided TreeIndex)
        (rebalance 1 false (lopsided TreeIndex)).state :=
  ⟨(rebalance_restores (consistent_lopsided (by decide +kernel))
      (by decide +kernel) false).mends (by decide +kernel) (by decide +kernel),
    (rebalance_restores (consistent_lopsided (by decide +kernel))
      (by decide +kernel) false).mends (by decide +kernel) (by decide +kernel)⟩

end PackedArray

end PackedMemory
