import PackedMemory.Proofs.PackedArray.Fits
import PackedMemory.Proofs.PackedArray.Reachable

/-!
# Room in full segments

A segment is filled up by an insertion that leaves no window around it overfull.
From then on these windows stay within their bounds as long as the segment stays
full, unless a repair is refused for want of storage.  So an insertion into a
full segment finds its gap by spreading a pair of segments, and an array that
may grow never does so merely to make room.
-/

namespace PackedMemory

namespace PackedArray

variable {ρ ι : Type} [Quantity ρ] {array new : PackedArray ρ ι}
  {segment : Nat}

def FitsAround (array : PackedArray ρ ι) (segment : Nat) : Prop :=
  ∀ level, 2 ≤ level → level ≤ array.storage.height → array.Fits segment level

theorem fitsAround_iff : array.FitsAround segment ↔
    ∀ reading ∈ array.readings segment, reading.overfull = false := by
  constructor
  · intro h reading hreading
    obtain ⟨level, hlow, hhigh, rfl⟩ := mem_readings.mp hreading
    exact h level hlow hhigh
  · intro h level hlow hhigh
    exact h _ (mem_readings.mpr ⟨level, hlow, hhigh, rfl⟩)

namespace FitsAround

theorem isCrammed_eq_false (h : array.FitsAround segment)
    (hexact : array.storage.Exact)
    (hsegment : segment < array.storage.segmentCount) :
    array.isCrammed = false := by
  have hlt := (h _ hexact.two_le_height (Nat.le_refl _)).size_lt_capacity hexact
    hsegment
  rw [isCrammed, beq_eq_false_iff_ne]
  exact Nat.ne_of_lt hlt

theorem settles_pair (h : array.FitsAround segment)
    (hexact : array.storage.Exact) :
    array.gauge.settles (array.readings segment)
      (array.readingAt segment 2) = true := by
  have hpair := h 2 (Nat.le_refl 2) hexact.two_le_height
  refine (array.gauge.settles_iff _ _).mpr
    ⟨array.gauge.isSpreadable_pair hpair, fun other hother hover => ?_⟩
  rw [fitsAround_iff.mp h other hother] at hover
  contradiction

/-- A full segment gets its gap from the pair that it belongs to. -/
theorem repair_eq_spread (h : array.FitsAround segment)
    (hexact : array.storage.Exact)
    (hfull : array.storage.isFull segment = true) :
    array.repair segment (array.readings segment) true =
      .spread (Window.around segment 2) := by
  have hheight := hexact.two_le_height
  have hfits := fitsAround_iff.mp h
  have hsettles := h.settles_pair hexact
  have hfind : (array.readings segment).find?
      (array.gauge.settles (array.readings segment)) =
        some (array.readingAt segment 2) := by
    generalize array.gauge.settles (array.readings segment) = settles at hsettles
    rw [readings, show array.storage.height - 1 =
      array.storage.height - 2 + 1 by omega, List.range'_succ, List.map_cons,
      List.find?_cons_of_pos hsettles]
  rw [repair, hfull, Bool.and_true,
    array.gauge.repair_eq (climbing_readings array segment),
    if_neg (by simp), hfind]
  rfl

theorem needs_no_growth (h : array.FitsAround segment)
    (hexact : array.storage.Exact)
    (hsegment : segment < array.storage.segmentCount)
    (hfull : array.storage.isFull segment = true) :
    ¬(array.isCrammed = true ∨
      array.repair segment (array.readings segment) true = .grow) := by
  rw [h.isCrammed_eq_false hexact hsegment, h.repair_eq_spread hexact hfull]
  simp

end FitsAround

/-! ## Full segments -/

/-- The windows around every full segment are within their bounds. -/
def Tended (array : PackedArray ρ ι) : Prop :=
  ∀ other, array.storage.filled other = array.storage.segmentCapacity →
    array.FitsAround other

def TendedBeside (array : PackedArray ρ ι) (segment : Nat) : Prop :=
  ∀ other, array.storage.filled other = array.storage.segmentCapacity →
    ∀ level, 2 ≤ level → level ≤ array.storage.height →
      other / Window.lengthAt level ≠ segment / Window.lengthAt level →
        array.Fits other level

theorem Tended.tendedBeside (h : array.Tended) (segment : Nat) :
    array.TendedBeside segment :=
  fun other hother level hlow hhigh _ => h other hother level hlow hhigh

theorem TendedBeside.tended (h : array.TendedBeside segment)
    (hsegment : array.FitsAround segment) : array.Tended := by
  intro other hother level hlow hhigh
  by_cases hsame :
      other / Window.lengthAt level = segment / Window.lengthAt level
  · exact (fits_congr hsame).mpr (hsegment level hlow hhigh)
  · exact h other hother level hlow hhigh hsame

theorem Tended.beside (h : array.Tended) (hshape : SameShape array new)
    (hsame : ∀ number, number ≠ segment →
      new.storage.filled number = array.storage.filled number) :
    new.TendedBeside segment := by
  intro other hother level hlow hhigh hapart
  have hne : other ≠ segment := by
    rintro rfl
    exact hapart rfl
  rw [hsame other hne, hshape.segmentCapacity_eq] at hother
  rw [hshape.height_eq] at hhigh
  exact (h other hother level hlow hhigh).of_apart hshape hsame hapart

/--
What every call keeps: an array that may still grow has no full segment in an
overfull window.
-/
def Poised (array : PackedArray ρ ι) : Prop := array.CanGrow → array.Tended

variable [OrderIndex ι] [LawfulIndex ι]

theorem tended_spreadOut {level : Nat} (h : Consistent array)
    (hsegment : segment < array.storage.segmentCount) (hlow : 2 ≤ level)
    (hhigh : level ≤ array.storage.height)
    (hsettles : array.gauge.settles (array.readings segment)
      (array.readingAt segment level) = true)
    (hbeside : array.TendedBeside segment) :
    (array.spreadOut (Window.around segment level)).Tended := by
  have hwindow := h.exact.around_le hsegment hhigh
  have hshape := sameShape_spreadOut h hsegment hhigh
  intro other hother sub hsub hheight
  rw [hshape.segmentCapacity_eq] at hother
  rw [hshape.height_eq] at hheight
  -- No segment that has been spread is full, so a full one is as it was.
  have hapart : other / Window.lengthAt level ≠
      segment / Window.lengthAt level := by
    intro hsame
    have hstart := around_start_le other level
    have hend := lt_around_end other level
    rw [Window.around_congr hsame] at hstart hend
    exact absurd hother (Nat.ne_of_lt
      (filled_spreadOut_lt h.exact hsegment hlow hhigh hsettles hstart hend))
  have hout := Window.around_apart hapart
  have hstart := around_start_le other level
  have hend := lt_around_end other level
  rw [PackedArray.spreadOut, Storage.filled_dealOut_of_apart hwindow _ (by omega)]
    at hother
  exact fits_spreadOut_beyond h hsegment hhigh hsettles hsub hheight
    (fun hsame => absurd hsame hapart) (hbeside other hother sub hsub hheight)

theorem tended_grownUp (h : Consistent array) : array.grownUp.Tended := by
  have hnew := (rearranges_grownUp h).consistent
  have hslots := hnew.exact.shaped.two_le_segmentCapacity
  intro other hother
  have hhalf := two_mul_filled_grownUp_le h.exact other
  omega

section Rebalancing

variable {needsGap : Bool} {result : Except Fault Unit}

theorem Rebalancing.tended
    (h : Rebalancing array segment needsGap (.ok ()) new)
    (harray : Consistent array)
    (hsegment : segment < array.storage.segmentCount)
    (hbeside : array.TendedBeside segment) : new.Tended := by
  cases h with
  | left hcrammed hrepair =>
      have hfits := ((array.gauge.repair_eq_leave_iff
        (climbing_readings array segment) _).mp hrepair).1
      exact hbeside.tended (fitsAround_iff.mpr hfits)
  | spread hcrammed hlow hhigh hsettles =>
      exact tended_spreadOut harray hsegment hlow hhigh hsettles hbeside
  | grown => exact tended_grownUp harray

theorem Rebalancing.canGrow
    (h : Rebalancing array segment needsGap result new)
    (harray : Consistent array)
    (hsegment : segment < array.storage.segmentCount)
    (hgrow : new.CanGrow) : array.CanGrow := by
  cases h with
  | left => exact hgrow
  | spread hcrammed hlow hhigh =>
      exact (sameShape_spreadOut harray hsegment hhigh).canGrow_iff.mp hgrow
  | grown hcause hcan => exact hcan
  | refused => exact hgrow

theorem Rebalancing.poised (h : Rebalancing array segment needsGap result new)
    (harray : Consistent array)
    (hsegment : segment < array.storage.segmentCount)
    (hbeside : array.CanGrow → array.TendedBeside segment) : new.Poised := by
  intro hgrow
  have hcan := h.canGrow harray hsegment hgrow
  rcases h.result_eq with rfl | rfl
  · exact h.tended harray hsegment (hbeside hcan)
  · exact absurd hcan (h.error_iff.mp rfl).2.2

end Rebalancing

/-! ## Steps -/

variable {key : Key} {value : Value} {number : Nat}

theorem Exchanges.tendedBeside {before after : Segment}
    (h : Exchanges number before after array new) (harray : Consistent array)
    (htended : array.Tended) : new.TendedBeside number := by
  refine htended.beside (h.sameShape harray) fun other hother => ?_
  rw [h.filled_eq, if_neg hother]

theorem Exchanges.tendedBeside_of_poised {before after : Segment}
    (h : Exchanges number before after array new) (harray : Consistent array)
    (hpoised : array.Poised) (hgrow : new.CanGrow) :
    new.TendedBeside number :=
  h.tendedBeside harray (hpoised ((h.sameShape harray).canGrow_iff.mp hgrow))

theorem RoomFinding.poised (h : RoomFinding array key (.ok number) new)
    (harray : Consistent array) (hpoised : array.Poised) : new.Poised := by
  cases h with
  | free => exact hpoised
  | cleared hrebalancing =>
      exact hrebalancing.poised harray (harray.predecessor_lt key)
        fun hgrow => (hpoised hgrow).tendedBeside _

theorem RoomFinding.capacity_eq (h : RoomFinding array key (.ok number) new)
    (harray : Consistent array) (hpoised : array.Poised) :
    new.capacity = array.capacity := by
  have hnumber := harray.predecessor_lt key
  cases h with
  | free => rfl
  | cleared hrebalancing hfree hfull =>
      cases hrebalancing with
      | left => rfl
      | spread hcrammed hlow hhigh =>
          exact (sameShape_spreadOut harray hnumber hhigh).capacity_eq
      | grown hcause hgrow =>
          have hfits := hpoised hgrow _
            ((harray.exact.isFull_iff hnumber).mp hfull)
          exact absurd hcause
            (hfits.needs_no_growth harray.exact hnumber hfull)

theorem Removal.poised {result : Except Fault (Option Value)}
    (h : Removal array key result new) (harray : Consistent array)
    (hpoised : array.Poised) : new.Poised := by
  cases h with
  | absent => exact hpoised
  | removed htakesOut hrebalancing =>
      exact hrebalancing.poised htakesOut.consistent htakesOut.lt_segmentCount
        (htakesOut.tendedBeside_of_poised harray hpoised)

theorem Insertion.poised {result : Except Fault Bool}
    (h : Insertion array key value result new) (harray : Consistent array)
    (hpoised : array.Poised) : new.Poised := by
  cases h with
  | duplicate => exact hpoised
  | refused => exact hpoised
  | stored habsent hroom hplaces hrebalancing =>
      exact hrebalancing.poised hplaces.consistent hplaces.lt_segmentCount
        (hplaces.tendedBeside_of_poised (hroom.rearranges harray).consistent
          (hroom.poised harray hpoised))
  | withdrawn habsent hroom hplaces hrebalancing hremoval =>
      exact hremoval.poised hplaces.consistent
        (hrebalancing.poised hplaces.consistent hplaces.lt_segmentCount
          (hplaces.tendedBeside_of_poised (hroom.rearranges harray).consistent
            (hroom.poised harray hpoised)))

omit [LawfulIndex ι] in
theorem tended_of_ofConfig {config : Config ρ}
    (h : ofConfig config = .ok array) : array.Tended := by
  obtain ⟨capacity, -, husable, rfl⟩ := exists_of_ofConfig h
  have hslots := (Storage.exact_blank husable).shaped.two_le_segmentCapacity
  intro other hother
  have hempty := Storage.filled_blank capacity other
  simp only [blank] at hother
  omega

theorem Reachable.poised {config : Config ρ} (h : Reachable config array) :
    array.Poised :=
  h.invariant_of_steps (fun _ hcreate _ => tended_of_ofConfig hcreate)
    (fun harray hpoised hinsertion => hinsertion.poised harray hpoised)
    fun harray hpoised hremoval => hremoval.poised harray hpoised

end PackedArray

end PackedMemory
