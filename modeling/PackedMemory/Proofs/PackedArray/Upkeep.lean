import PackedMemory.Proofs.PackedArray.Fits
import PackedMemory.Proofs.PackedArray.Reachable

/-!
# Properties that are kept up

A property that a new entry impairs only around its segment, that a rebalancing
restores there, and that fewer entries never impair, holds after every call.  An
insertion that fails leaves all segments as full as they were, so it needs no
rebalancing to restore the property.
-/

namespace PackedMemory

namespace PackedArray

variable {ρ ι : Type} [Quantity ρ] [OrderIndex ι] [LawfulIndex ι]

structure KeptUp (P : PackedArray ρ ι → Prop)
    (Beside : PackedArray ρ ι → Nat → Prop) : Prop where
  beside : ∀ {array : PackedArray ρ ι} (segment : Nat),
    P array → Beside array segment
  placed : ∀ {array new : PackedArray ρ ι} {number : Nat} {segment : Segment}
    {entry : Entry}, Places number segment entry array new →
      Consistent array → P array → Beside new number
  restored : ∀ {array new : PackedArray ρ ι} {segment : Nat} {needsGap : Bool},
    Rebalancing array segment needsGap (.ok ()) new → Consistent array →
      segment < array.storage.segmentCount → Beside array segment → P new
  relieved : ∀ {array new : PackedArray ρ ι}, Consistent array →
    SameShape array new →
      (∀ number, new.storage.filled number ≤ array.storage.filled number) →
        P array → P new

namespace KeptUp

variable {P : PackedArray ρ ι → Prop} {Beside : PackedArray ρ ι → Nat → Prop}
  {array new : PackedArray ρ ι} {key : Key} {value : Value}
  {segment number : Nat}

/-- Also a rebalancing that is refused keeps what holds before it. -/
theorem rebalancing (h : KeptUp P Beside) {needsGap : Bool}
    {result : Except Fault Unit}
    (hrebalancing : Rebalancing array segment needsGap result new)
    (harray : Consistent array)
    (hsegment : segment < array.storage.segmentCount) (hP : P array) :
    P new := by
  rcases hrebalancing.result_eq with rfl | rfl
  · exact h.restored hrebalancing harray hsegment (h.beside segment hP)
  · rw [hrebalancing.eq_of_error.2]
    exact hP

theorem roomFinding (h : KeptUp P Beside)
    (hroom : RoomFinding array key (.ok number) new)
    (harray : Consistent array) (hP : P array) : P new := by
  cases hroom with
  | free => exact hP
  | cleared hrebalancing =>
      exact h.rebalancing hrebalancing harray (harray.predecessor_lt key) hP

theorem takesOut (h : KeptUp P Beside) {offset : Nat} {segment : Segment}
    {entry : Entry} (htakesOut : TakesOut number offset segment entry array new)
    (harray : Consistent array) (hP : P array) : P new :=
  h.relieved harray (htakesOut.sameShape harray) htakesOut.filled_le hP

theorem removal (h : KeptUp P Beside) {result : Except Fault (Option Value)}
    (hremoval : Removal array key result new) (harray : Consistent array)
    (hP : P array) : P new := by
  cases hremoval with
  | absent => exact hP
  | removed htakesOut hrebalancing =>
      exact h.rebalancing hrebalancing htakesOut.consistent
        htakesOut.lt_segmentCount (h.takesOut htakesOut harray hP)

theorem insertion (h : KeptUp P Beside) {result : Except Fault Bool}
    (hinsertion : Insertion array key value result new)
    (harray : Consistent array) (hP : P array) : P new := by
  cases hinsertion with
  | duplicate => exact hP
  | refused => exact hP
  | stored habsent hroom hplaces hrebalancing =>
      have hplaced := h.placed hplaces (hroom.rearranges harray).consistent
        (h.roomFinding hroom harray hP)
      exact h.restored hrebalancing hplaces.consistent hplaces.lt_segmentCount
        hplaced
  | withdrawn habsent hroom hplaces hrebalancing hremoval =>
      -- The placed entry may leave windows overfull, so `P` is taken from the
      -- array before it.
      have hconsistent := (hroom.rearranges harray).consistent
      cases hremoval with
      | absent hnone =>
          rw [hplaces.find?_eq] at hnone
          contradiction
      | removed htakesOut hrestored =>
          have hshape := (hplaces.sameShape hconsistent).trans
            (htakesOut.sameShape hplaces.consistent)
          have hrest := h.relieved hconsistent hshape
            (fun position => (htakesOut.filled_of_places hplaces position).le)
            (h.roomFinding hroom harray hP)
          exact h.rebalancing hrestored htakesOut.consistent
            htakesOut.lt_segmentCount hrest

theorem reachable {config : Config ρ} (h : KeptUp P Beside)
    (hcreate : ∀ array, ofConfig config = .ok array → P array)
    (hreachable : Reachable config array) : P array :=
  hreachable.invariant_of_steps hcreate
    (fun harray hP hinsertion => h.insertion hinsertion harray hP)
    fun harray hP hremoval => h.removal hremoval harray hP

end KeptUp

end PackedArray

end PackedMemory
