import PackedMemory.Proofs.PackedArray.Rebalance
import PackedMemory.Proofs.PackedArray.Single

/-!
# Insertion and removal in consistent arrays

Every way in which an insertion or a removal can go, as the steps it consists
of.  What holds after either of them is read off these steps.
-/

namespace PackedMemory

namespace PackedArray

variable {ρ ι : Type} [Quantity ρ] [OrderIndex ι] [LawfulIndex ι]

inductive Removal (array : PackedArray ρ ι) (key : Key) :
    Except Fault (Option Value) → PackedArray ρ ι → Prop
  | absent (habsent : array.find? key = none) :
      Removal array key (.ok none) array
  | removed {offset : Nat} {segment : Segment} {value : Value}
      {rest new : PackedArray ρ ι} {result : Except Fault Unit}
      (htakesOut : TakesOut (array.predecessor key) offset segment ⟨key, value⟩
        array rest)
      (hrebalancing : Rebalancing rest (array.predecessor key) false result
        new) :
      Removal array key (result.map fun _ => some value) new

inductive RoomFinding (array : PackedArray ρ ι) (key : Key) :
    Except Fault Nat → PackedArray ρ ι → Prop
  | free (hfree : array.storage.isFull (array.predecessor key) = false) :
      RoomFinding array key (.ok (array.predecessor key)) array
  | cleared {new : PackedArray ρ ι}
      (hrebalancing : Rebalancing array (array.predecessor key) true (.ok ())
        new)
      (hfree : new.storage.isFull (new.predecessor key) = false)
      (hfull : array.storage.isFull (array.predecessor key) = true) :
      RoomFinding array key (.ok (new.predecessor key)) new
  | refused {fault : Fault}
      (hrebalancing : Rebalancing array (array.predecessor key) true
        (.error fault) array)
      (hfull : array.storage.isFull (array.predecessor key) = true) :
      RoomFinding array key (.error fault) array

inductive Insertion (array : PackedArray ρ ι) (key : Key) (value : Value) :
    Except Fault Bool → PackedArray ρ ι → Prop
  | duplicate (hpresent : array.find? key ≠ none) :
      Insertion array key value (.ok false) array
  | refused {fault : Fault} (habsent : array.find? key = none)
      (hroom : RoomFinding array key (.error fault) array) :
      Insertion array key value (.error fault) array
  | stored {number : Nat} {segment : Segment}
      {room placed new : PackedArray ρ ι} (habsent : array.find? key = none)
      (hroom : RoomFinding array key (.ok number) room)
      (hplaces : Places number segment ⟨key, value⟩ room placed)
      (hrebalancing : Rebalancing placed number false (.ok ()) new) :
      Insertion array key value (.ok true) new
  | withdrawn {number : Nat} {segment : Segment} {fault : Fault}
      {room placed new : PackedArray ρ ι}
      {removed : Except Fault (Option Value)}
      (habsent : array.find? key = none)
      (hroom : RoomFinding array key (.ok number) room)
      (hplaces : Places number segment ⟨key, value⟩ room placed)
      (hrebalancing : Rebalancing placed number false (.error fault) placed)
      (hremoval : Removal placed key removed new) :
      Insertion array key value (.error fault) new

variable {array new : PackedArray ρ ι} {key : Key} {value : Value}
  {number : Nat}

/-! ## Removal -/

theorem remove_of_absent (h : Consistent array)
    (habsent : array.find? key = none) :
    remove key array = ⟨.ok none, array, []⟩ := by
  simp only [remove, Update.view_bind]
  cases array.isEmpty with
  | true => rfl
  | false =>
      obtain ⟨segment, hsegment⟩ := h.exists_predecessor key
      have hposition := Storage.position?_eq hsegment key
      rw [(h.position?_eq_none_iff hsegment).mpr habsent] at hposition
      simp only [Bool.false_eq_true, if_false, Update.bind_apply,
        Update.view_apply, Update.ask_apply, hposition, Update.pure_apply,
        List.append_nil]

theorem remove_of_stored (h : Consistent array)
    (hstored : array.find? key = some value) :
    ∃ offset segment rest,
      TakesOut (array.predecessor key) offset segment ⟨key, value⟩ array rest ∧
        rest.index = array.unlearn segment (segment.set offset none) key ∧
        remove key array =
          (do rebalance (array.predecessor key) false; return some value :
            Update (PackedArray ρ ι) (Option Value)) rest := by
  obtain ⟨segment, hsegment⟩ := h.exists_predecessor key
  have hposition := Storage.position?_eq hsegment key
  have hempty : array.isEmpty = false := by
    rw [Bool.eq_false_iff]
    intro hempty
    rw [find?, hempty] at hstored
    contradiction
  cases hoffset : segment.position? key with
  | none =>
      rw [(h.position?_eq_none_iff hsegment).mp hoffset] at hstored
      contradiction
  | some offset =>
      obtain ⟨entry, hentry, rfl⟩ := Segment.getElem?_of_position? hoffset
      obtain ⟨rest, htakeOut, htakesOut, hindex⟩ :=
        takeOut_eq h hsegment hentry
      obtain rfl : entry.value = value :=
        Option.some.inj ((htakesOut.find?_eq h).symm.trans hstored)
      rw [hoffset] at hposition
      refine ⟨offset, segment, rest, htakesOut, hindex, ?_⟩
      simp only [remove, Update.bind_apply, Update.view_apply,
        Update.ask_apply, hempty, Bool.false_eq_true, if_false, hposition,
        htakeOut, List.nil_append]

theorem removal (h : Consistent array) (key : Key) :
    ∃ result new, Update.run (remove key) array = (result, new) ∧
      Removal array key result new := by
  cases hfind : array.find? key with
  | none =>
      exact ⟨_, _, Update.run_of_eq (remove_of_absent h hfind), .absent hfind⟩
  | some value =>
      obtain ⟨offset, segment, rest, htakesOut, -, hremove⟩ :=
        remove_of_stored h hfind
      obtain ⟨result, new, hrebalance, hrebalancing⟩ :=
        rebalancing htakesOut.consistent.exact htakesOut.lt_segmentCount false
      have hremoved := Removal.removed htakesOut hrebalancing
      rw [Update.run_congr hremove, Update.run_bind, hrebalance]
      cases result with
      | ok _ => exact ⟨_, _, rfl, hremoved⟩
      | error fault => exact ⟨_, _, rfl, hremoved⟩

theorem Removal.consistent {result : Except Fault (Option Value)}
    (h : Removal array key result new) (harray : Consistent array) :
    Consistent new := by
  cases h with
  | absent => exact harray
  | removed htakesOut hrebalancing =>
      exact (hrebalancing.rearranges htakesOut.consistent
        htakesOut.lt_segmentCount).consistent

theorem Removal.policy_eq {result : Except Fault (Option Value)}
    (h : Removal array key result new) : new.policy = array.policy := by
  cases h with
  | absent => rfl
  | removed htakesOut hrebalancing =>
      rw [(hrebalancing.rearranges htakesOut.consistent
        htakesOut.lt_segmentCount).policy_eq, htakesOut.policy_eq]

theorem Removal.effect {result : Except Fault (Option Value)}
    (h : Removal array key result new) (harray : Consistent array) :
    (array.find? key = none ∧ result = .ok none ∧ new = array) ∨
      ∃ value, array.find? key = some value ∧
        Inserts ⟨key, value⟩ new.storage.entries array.storage.entries ∧
          (result = .ok (some value) ∨
            result = .error (.allocationFailure (2 * array.capacity))) := by
  cases h with
  | absent habsent => exact .inl ⟨habsent, rfl, rfl⟩
  | removed htakesOut hrebalancing =>
      have hrearranges := hrebalancing.rearranges htakesOut.consistent
        htakesOut.lt_segmentCount
      refine .inr ⟨_, htakesOut.find?_eq harray, ?_, ?_⟩
      · rw [hrearranges.entries_eq]
        exact htakesOut.inserts
      · rcases hrebalancing.result_eq with rfl | rfl
        · exact .inl rfl
        · rw [htakesOut.capacity_eq]
          exact .inr rfl

theorem Removal.eq_of_error {fault : Fault}
    (h : Removal array key (.error fault) new) (harray : Consistent array) :
    fault = .allocationFailure (2 * array.capacity) := by
  obtain ⟨-, hresult, -⟩ | ⟨value, -, -, hresult | hresult⟩ := h.effect harray
  · contradiction
  · contradiction
  · exact Except.error.inj hresult

/-! ## Room for a key -/

/-- A repair of the full owner of a key leaves an owner with a gap. -/
theorem Rebalancing.isFull_eq_false
    (hrebalancing : Rebalancing array (array.predecessor key) true (.ok ()) new)
    (h : Consistent array)
    (hfull : array.storage.isFull (array.predecessor key) = true) :
    new.storage.isFull (new.predecessor key) = false := by
  have hnew := (hrebalancing.rearranges h (h.predecessor_lt key)).consistent
  obtain ⟨segment, hsegment⟩ := hnew.exists_predecessor key
  rw [hnew.exact.isFull_eq hsegment, beq_eq_false_iff_ne,
    ← Storage.filled_eq hsegment]
  cases hrebalancing with
  | left hcrammed hrepair =>
      have hgap := ((array.gauge.repair_eq_leave_iff
        (climbing_readings array _) _).mp hrepair).2
      rw [hfull] at hgap
      contradiction
  | spread hcrammed hlow hhigh hsettles =>
      rename_i level
      obtain ⟨hbelow, habove⟩ := predecessor_spreadOut h
        (Window.lengthAt_pos level)
        (h.exact.around_le (h.predecessor_lt key) hhigh)
        (around_start_le _ level) (lt_around_end _ level)
      exact Nat.ne_of_lt (filled_spreadOut_lt h.exact (h.predecessor_lt key)
        hlow hhigh hsettles hbelow habove)
  | grown =>
      have hhalf := two_mul_filled_grownUp_le h.exact (array.grownUp.predecessor key)
      have htwo := hnew.exact.shaped.two_le_segmentCapacity
      omega

theorem roomFinding (h : Consistent array) (key : Key) :
    ∃ result new, Update.run (findRoom (array.predecessor key) key) array =
      (result, new) ∧ RoomFinding array key result new := by
  simp only [findRoom, Update.run_bind, Update.run_view]
  cases hfull : array.storage.isFull (array.predecessor key) with
  | false => exact ⟨_, _, rfl, .free hfull⟩
  | true =>
      obtain ⟨result, new, hrebalance, hrebalancing⟩ :=
        rebalancing h.exact (h.predecessor_lt key) true
      simp only [if_true, Update.run_bind, hrebalance, Update.run_view]
      cases result with
      | ok _ =>
          have hfree := hrebalancing.isFull_eq_false h hfull
          simp only [hfree]
          exact ⟨_, _, rfl, .cleared hrebalancing hfree hfull⟩
      | error fault =>
          obtain ⟨-, rfl⟩ := hrebalancing.eq_of_error
          exact ⟨_, _, rfl, .refused hrebalancing hfull⟩

namespace RoomFinding

theorem rearranges {result : Except Fault Nat}
    (h : RoomFinding array key result new) (harray : Consistent array) :
    Rearranges array new := by
  cases h with
  | free => exact .refl harray
  | cleared hrebalancing =>
      exact hrebalancing.rearranges harray (harray.predecessor_lt key)
  | refused => exact .refl harray

omit [LawfulIndex ι] in
theorem eq_predecessor (h : RoomFinding array key (.ok number) new) :
    number = new.predecessor key ∧ new.storage.isFull number = false := by
  cases h with
  | free hfree => exact ⟨rfl, hfree⟩
  | cleared hrebalancing hfree => exact ⟨rfl, hfree⟩

end RoomFinding

/-! ## Insertion -/

theorem insertion (h : Consistent array) (key : Key) (value : Value) :
    ∃ result new, Update.run (insert key value) array = (result, new) ∧
      Insertion array key value result new := by
  obtain ⟨segment, hsegment⟩ := h.exists_predecessor key
  have hposition := Storage.position?_eq hsegment key
  have hpresence := h.position?_eq_none_iff hsegment
  simp only [insert, Update.run_bind, Update.run_view, Update.run_ask,
    hposition]
  cases hoffset : segment.position? key with
  | some offset =>
      refine ⟨_, _, rfl, .duplicate fun habsent => ?_⟩
      rw [hpresence.mpr habsent] at hoffset
      contradiction
  | none =>
      have habsent := hpresence.mp hoffset
      obtain ⟨result, room, hfindRoom, hroom⟩ := roomFinding h key
      simp only [Update.run_bind, hfindRoom]
      cases result with
      | error fault =>
          cases hroom with
          | refused hrebalancing hfull =>
              exact ⟨_, _, rfl,
                .refused habsent (.refused hrebalancing hfull)⟩
      | ok number =>
          obtain ⟨rfl, hfree⟩ := hroom.eq_predecessor
          have hrearranges := hroom.rearranges h
          obtain ⟨segment, placed, hplace, hplaces⟩ :=
            place_of_isFull_eq_false hrearranges.consistent value
              (hrearranges.find?_eq h key ▸ habsent) hfree
          obtain ⟨result, new, hrebalance, hrebalancing⟩ :=
            rebalancing hplaces.consistent.exact hplaces.lt_segmentCount false
          simp only [Update.run_of_eq hplace, Update.run_onFault, hrebalance]
          cases result with
          | ok _ =>
              exact ⟨_, _, rfl, .stored habsent hroom hplaces hrebalancing⟩
          | error fault =>
              obtain ⟨rfl, rfl⟩ := hrebalancing.eq_of_error
              obtain ⟨removed, rest, hremove, hremoval⟩ :=
                removal hplaces.consistent key
              have hwithdrawn := Insertion.withdrawn habsent hroom hplaces
                hrebalancing hremoval
              simp only [Update.run_bind, hremove]
              -- A removal can only be refused the same growth, so the fault
              -- that is reported does not depend on how it goes.
              cases removed with
              | ok _ => exact ⟨_, _, rfl, hwithdrawn⟩
              | error fault =>
                  rw [hremoval.eq_of_error hplaces.consistent]
                  exact ⟨_, _, rfl, hwithdrawn⟩

omit [LawfulIndex ι] in
theorem RoomFinding.eq_of_error {fault : Fault}
    (h : RoomFinding array key (.error fault) new) :
    fault = .allocationFailure (2 * array.capacity) ∧ new = array := by
  cases h with
  | refused hrebalancing => exact ⟨hrebalancing.eq_of_error.1, rfl⟩

namespace Insertion

variable {result : Except Fault Bool}

theorem consistent (h : Insertion array key value result new)
    (harray : Consistent array) : Consistent new := by
  cases h with
  | duplicate => exact harray
  | refused => exact harray
  | stored _ _ hplaces hrebalancing =>
      exact (hrebalancing.rearranges hplaces.consistent
        hplaces.lt_segmentCount).consistent
  | withdrawn habsent hroom hplaces hrebalancing hremoval =>
      exact hremoval.consistent hplaces.consistent

theorem policy_eq (h : Insertion array key value result new)
    (harray : Consistent array) : new.policy = array.policy := by
  cases h with
  | duplicate => rfl
  | refused => rfl
  | stored habsent hroom hplaces hrebalancing =>
      rw [(hrebalancing.rearranges hplaces.consistent
        hplaces.lt_segmentCount).policy_eq, hplaces.policy_eq,
        (hroom.rearranges harray).policy_eq]
  | withdrawn habsent hroom hplaces hrebalancing hremoval =>
      rw [hremoval.policy_eq, hplaces.policy_eq,
        (hroom.rearranges harray).policy_eq]

theorem effect (h : Insertion array key value result new)
    (harray : Consistent array) :
    (array.find? key ≠ none ∧ result = .ok false ∧ new = array) ∨
      (array.find? key = none ∧ result = .ok true ∧
        Inserts ⟨key, value⟩ array.storage.entries new.storage.entries) ∨
          (array.find? key = none ∧
            (∃ capacity, result = .error (.allocationFailure capacity)) ∧
              new.storage.entries = array.storage.entries) := by
  cases h with
  | duplicate hpresent => exact .inl ⟨hpresent, rfl, rfl⟩
  | refused habsent hroom =>
      exact .inr (.inr ⟨habsent, ⟨_, congrArg _ hroom.eq_of_error.1⟩, rfl⟩)
  | stored habsent hroom hplaces hrebalancing =>
      refine .inr (.inl ⟨habsent, rfl, ?_⟩)
      rw [(hrebalancing.rearranges hplaces.consistent
        hplaces.lt_segmentCount).entries_eq,
        ← (hroom.rearranges harray).entries_eq]
      exact hplaces.inserts
  | withdrawn habsent hroom hplaces hrebalancing hremoval =>
      refine .inr (.inr ⟨habsent,
        ⟨_, congrArg _ hrebalancing.eq_of_error.1⟩, ?_⟩)
      have hfound := hplaces.find?_eq
      rw [← (hroom.rearranges harray).entries_eq]
      obtain ⟨hnone, -⟩ | ⟨other, hother, hinserts, -⟩ :=
        hremoval.effect hplaces.consistent
      · rw [hfound] at hnone
        contradiction
      · rw [hfound, Option.some.injEq] at hother
        subst hother
        exact hinserts.unique hplaces.inserts hplaces.consistent.ascending

end Insertion

end PackedArray

end PackedMemory
