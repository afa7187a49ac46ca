import PackedMemory.Proofs.PackedArray.Rebalance
import PackedMemory.Proofs.PackedArray.Single
import PackedMemory.Proofs.PackedArray.Reachable
import PackedMemory.Proofs.Storage.History

/-!
# Lawless indexes

An index that breaks its laws may answer anything, and it may change its mind
between two questions.  Keys then end up in the wrong places, but no entry is
lost or stored twice: all that moves entries are the steps on the storage, and
these keep it exact whatever segments they are sent to.
-/

namespace PackedMemory

theorem Storage.exists_segment_of_position? {storage : Storage} {number : Nat}
    {key : Key} {found : Option Nat}
    (h : storage.position? number key = .ok found) :
    ∃ segment, storage.segments[number]? = some segment ∧
      segment.position? key = found := by
  cases hsegment : storage.segments[number]? with
  | none =>
      simp [Storage.position?, Storage.segment, hsegment, bind, Except.bind] at h
  | some segment =>
      rw [Storage.position?_eq hsegment] at h
      exact ⟨segment, rfl, Except.ok.inj h⟩

abbrev Inquiry (ι : Type) := ι → Key → Nat × ι

namespace PackedArray

variable {ρ ι : Type} {array new : PackedArray ρ ι} {number : Nat} {key : Key}
  {value : Value} {inquiry : Inquiry ι}

def contents (array : PackedArray ρ ι) : Multiset Entry :=
  array.storage.entries

theorem contents_of_inserts {entry : Entry}
    (h : Inserts entry array.storage.entries new.storage.entries) :
    new.contents = entry ::ₘ array.contents := by
  obtain ⟨before, after, hold, hnew⟩ := h
  simp only [contents, hold, hnew, Multiset.cons_coe, Multiset.coe_eq_coe]
  exact List.perm_middle

structure Descends (old new : PackedArray ρ ι) : Prop where
  exact : new.storage.Exact
  policy_eq : new.policy = old.policy
  capacity_eq : ∃ doublings, new.capacity = old.capacity * 2 ^ doublings
  capacity_le : old.capacity ≤ old.policy.maxCapacity →
    new.capacity ≤ old.policy.maxCapacity

namespace Descends

theorem of_capacity_eq (hexact : new.storage.Exact)
    (hpolicy : new.policy = array.policy)
    (hcapacity : new.capacity = array.capacity) : Descends array new :=
  ⟨hexact, hpolicy, ⟨0, by simpa using hcapacity⟩, by simp [hcapacity]⟩

theorem refl (h : array.storage.Exact) : Descends array array :=
  of_capacity_eq h rfl rfl

theorem trans {middle : PackedArray ρ ι} (hfirst : Descends array middle)
    (hsecond : Descends middle new) : Descends array new := by
  obtain ⟨fewer, hfewer⟩ := hfirst.capacity_eq
  obtain ⟨more, hmore⟩ := hsecond.capacity_eq
  refine ⟨hsecond.exact, hsecond.policy_eq.trans hfirst.policy_eq,
    ⟨fewer + more, ?_⟩, fun hold => ?_⟩
  · rw [hmore, hfewer, Nat.mul_assoc, ← Nat.pow_add]
  · have hmiddle := hfirst.capacity_le hold
    rw [← hfirst.policy_eq] at hmiddle ⊢
    exact hsecond.capacity_le hmiddle

theorem capacity_mono (h : Descends array new) :
    array.capacity ≤ new.capacity := by
  obtain ⟨doublings, hcapacity⟩ := h.capacity_eq
  rw [hcapacity]
  exact Nat.le_mul_of_pos_right _ (Nat.two_pow_pos doublings)

theorem reindexed (h : array.storage.Exact) (index : ι) :
    Descends array { array with index } :=
  of_capacity_eq h rfl rfl

theorem withSegment {after : Segment} {index : ι}
    (h : (array.withSegment number after index).storage.Exact) :
    Descends array (array.withSegment number after index) :=
  of_capacity_eq h rfl capacity_withSegment

end Descends

/-! ## Steps -/

variable [OrderIndex ι]

theorem spreading (h : array.storage.Exact) (window : Window) :
    (spread window array).state.storage.Exact ∧
      (spread window array).state.storage.entries = array.storage.entries := by
  by_cases hwindow : 0 < window.length ∧
      window.start + window.length ≤ array.storage.segmentCount
  · rw [spread_eq h hwindow.1 hwindow.2]
    exact ⟨exact_spreadOut h hwindow.1, entries_spreadOut hwindow.1 hwindow.2⟩
  · have hstorage : (Update.run (spread window) array).2.storage =
        array.storage := by
      simp only [spread, Update.run_bind, Update.run_ask]
      cases array.storage.leaders window.segments with
      | error fault => rfl
      | ok leaders =>
          simp [Update.run, onIndex, onStorage, Storage.drain,
            Storage.checkWindow, hwindow]
    change (spread window array).state.storage = _ at hstorage
    rw [hstorage]
    exact ⟨h, rfl⟩

theorem growing (h : array.storage.Exact) :
    (grow array).state.storage.Exact ∧
      (grow array).state.storage.entries = array.storage.entries := by
  by_cases hgrow : array.CanGrow
  · obtain ⟨events, heq⟩ := grow_of_canGrow (usable_double h)
      (length_entries_le_blank h) hgrow
    rw [heq]
    exact ⟨exact_grownUp h, entries_grownUp h⟩
  · rw [grow_of_not_canGrow (usable_double h) hgrow]
    exact ⟨h, rfl⟩

theorem place_of_none (h : array.storage.segments[number]? = none)
    (entry : Entry) :
    place number entry array =
      ⟨.error (array.storage.outOfRange number), array, []⟩ := by
  have hrange : ¬number < array.storage.segmentCount :=
    Nat.not_lt.mpr (Array.getElem?_eq_none_iff.mp h)
  have hleader : array.storage.leader? number =
      .error (array.storage.outOfRange number) := by
    simp only [Storage.leader?, Storage.count, if_neg hrange]
    rfl
  exact Update.ask_bind_of_error hleader

theorem placing (h : array.storage.Exact) (entry : Entry)
    (hfree : array.storage.isFull number = false) :
    (∃ fault, place number entry array = ⟨.error fault, array, []⟩) ∨
      ∃ placed, place number entry array = ⟨.ok (), placed, []⟩ ∧
        Descends array placed ∧ number < placed.storage.segmentCount ∧
          placed.contents = entry ::ₘ array.contents := by
  cases hsegment : array.storage.segments[number]? with
  | none => exact .inl ⟨_, place_of_none hsegment entry⟩
  | some segment =>
      have hcount := Storage.lt_segmentCount hsegment
      have hgap := h.length_lt_of_isFull_eq_false hsegment hfree
      refine .inr ⟨_, place_of_exact h hsegment hgap entry,
        .withSegment (h.exact_insert hsegment hgap entry), ?_, ?_⟩
      · exact hcount.trans_eq Array.size_setIfInBounds.symm
      · exact contents_of_inserts (inserts_withSegment hsegment entry _)

theorem takingOut (h : array.storage.Exact) {segment : Segment} {offset : Nat}
    {entry : Entry} (hsegment : array.storage.segments[number]? = some segment)
    (hentry : segment[offset]? = some (some entry)) :
    ∃ rest, takeOut number offset entry.key array =
        ⟨.ok (some entry.value), rest, []⟩ ∧
      Descends array rest ∧ number < rest.storage.segmentCount ∧
        array.contents = entry ::ₘ rest.contents := by
  have hcount := Storage.lt_segmentCount hsegment
  refine ⟨_, takeOut_of_exact h hsegment hentry,
    .withSegment (h.exact_removeAt hsegment offset), ?_, ?_⟩
  · exact hcount.trans_eq Array.size_setIfInBounds.symm
  · exact contents_of_inserts (withSegment_inserts hsegment hentry _)

variable [Quantity ρ]

theorem Rebalancing.descends {segment : Nat} {needsGap : Bool}
    {result : Except Fault Unit}
    (h : Rebalancing array segment needsGap result new)
    (harray : array.storage.Exact) : Descends array new := by
  cases h with
  | left => exact .refl harray
  | spread =>
      exact .of_capacity_eq (exact_spreadOut harray (Window.lengthAt_pos _)) rfl
        (capacity_spreadOut _ _)
  | grown hcause hgrow =>
      have hcapacity := capacity_grownUp harray
      refine ⟨exact_grownUp harray, rfl, ⟨1, ?_⟩, fun _ => ?_⟩
      · rw [hcapacity, Nat.pow_one, Nat.mul_comm]
      · rw [hcapacity]
        exact hgrow.1
  | refused => exact .refl harray

theorem Rebalancing.contents_eq {segment : Nat} {needsGap : Bool}
    {result : Except Fault Unit}
    (h : Rebalancing array segment needsGap result new)
    (harray : array.storage.Exact)
    (hsegment : segment < array.storage.segmentCount) :
    new.contents = array.contents := by
  cases h with
  | left => rfl
  | spread hcrammed hlow hhigh =>
      rw [contents, entries_spreadOut (Window.lengthAt_pos _)
        (harray.around_le hsegment hhigh), contents]
  | grown => rw [contents, entries_grownUp harray, contents]
  | refused => rfl

/-! ## Changes by any lookup -/

def steady : Inquiry ι := fun index key =>
  (OrderIndex.predecessor index key, index)

def inquire (inquiry : Inquiry ι) (key : Key) : Update (PackedArray ρ ι) Nat :=
  fun array =>
    let (segment, index) := inquiry array.index key
    ⟨.ok segment, { array with index }, []⟩

def findRoomBy (inquiry : Inquiry ι) (segment : Nat) (key : Key) :
    Update (PackedArray ρ ι) Nat := do
  if ← .view fun array => array.storage.isFull segment then
    rebalance segment true
    let segment ← inquire inquiry key
    if ← .view fun array => array.storage.isFull segment then
      .fail (.misuse (.segmentStillFull segment))
    else
      return segment
  else
    return segment

def removeFrom (segment : Nat) (key : Key) :
    Update (PackedArray ρ ι) (Option Value) := do
  match ← .ask fun array => array.storage.position? segment key with
  | none => return none
  | some offset =>
      let removed ← takeOut segment offset key
      rebalance segment false
      return removed

def removeBy (inquiry : Inquiry ι) (key : Key) :
    Update (PackedArray ρ ι) (Option Value) := do
  if ← .view isEmpty then
    return none
  else
    let segment ← inquire inquiry key
    removeFrom segment key

def storeBy (inquiry : Inquiry ι) (segment : Nat) (entry : Entry) :
    Update (PackedArray ρ ι) Bool := do
  place segment entry
  (rebalance segment false).onFault fun fault => do
    let _ ← removeBy inquiry entry.key
    .fail fault
  return true

def insertFrom (inquiry : Inquiry ι) (segment : Nat) (entry : Entry) :
    Update (PackedArray ρ ι) Bool := do
  match ← .ask fun array => array.storage.position? segment entry.key with
  | some _ => return false
  | none =>
      let segment ← findRoomBy inquiry segment entry.key
      storeBy inquiry segment entry

def insertBy (inquiry : Inquiry ι) (key : Key) (value : Value) :
    Update (PackedArray ρ ι) Bool := do
  let segment ← inquire inquiry key
  insertFrom inquiry segment ⟨key, value⟩

theorem removeBy_steady (key : Key) :
    removeBy steady key = (remove key : Update (PackedArray ρ ι) _) := rfl

theorem insertBy_steady (key : Key) (value : Value) :
    insertBy steady key value =
      (insert key value : Update (PackedArray ρ ι) _) := rfl

omit [OrderIndex ι] [Quantity ρ] in
@[simp] theorem run_inquire (inquiry : Inquiry ι) (key : Key)
    (array : PackedArray ρ ι) :
    Update.run (inquire inquiry key) array =
      (.ok (inquiry array.index key).1,
        { array with index := (inquiry array.index key).2 }) := rfl

def accountOfRemoval (key : Key) (old new : Multiset Entry) :
    Except Fault (Option Value) → Prop
  | .ok (some value) => old = ⟨key, value⟩ ::ₘ new
  | .ok none => new = old
  | .error _ => True

def accountOfInsertion (entry : Entry) (old new : Multiset Entry) :
    Except Fault Bool → Prop
  | .ok true => new = entry ::ₘ old
  | .ok false => new = old
  | .error _ => True

theorem removingFrom (h : array.storage.Exact) (number : Nat) (key : Key) :
    ∃ result new, Update.run (removeFrom number key) array = (result, new) ∧
      Descends array new ∧
        accountOfRemoval key array.contents new.contents result := by
  simp only [removeFrom, Update.run_bind, Update.run_ask]
  cases hposition : array.storage.position? number key with
  | error fault => exact ⟨_, _, rfl, .refl h, trivial⟩
  | ok found =>
      obtain ⟨segment, hsegment, hfound⟩ :=
        Storage.exists_segment_of_position? hposition
      cases found with
      | none => exact ⟨_, _, rfl, .refl h, rfl⟩
      | some offset =>
          obtain ⟨entry, hentry, rfl⟩ := Segment.getElem?_of_position? hfound
          obtain ⟨rest, htakeOut, hrest, hcount, hcontents⟩ :=
            takingOut h hsegment hentry
          obtain ⟨result, new, hrebalance, hrebalancing⟩ :=
            rebalancing hrest.exact hcount false
          have hnew := hrest.trans (hrebalancing.descends hrest.exact)
          simp only [Update.run_bind, Update.run_of_eq htakeOut, hrebalance]
          cases result with
          | error fault => exact ⟨_, _, rfl, hnew, trivial⟩
          | ok _ =>
              rw [← hrebalancing.contents_eq hrest.exact hcount] at hcontents
              exact ⟨_, _, rfl, hnew, hcontents⟩

theorem removingBy (h : array.storage.Exact) (inquiry : Inquiry ι) (key : Key) :
    ∃ result new, Update.run (removeBy inquiry key) array = (result, new) ∧
      Descends array new ∧
        accountOfRemoval key array.contents new.contents result := by
  simp only [removeBy, Update.run_bind, Update.run_view]
  cases array.isEmpty with
  | true => exact ⟨_, _, rfl, .refl h, rfl⟩
  | false =>
      have hasked := Descends.reindexed h (inquiry array.index key).2
      obtain ⟨result, new, hremove, hnew, haccount⟩ :=
        removingFrom hasked.exact (inquiry array.index key).1 key
      simp only [Bool.false_eq_true, if_false, Update.run_bind, run_inquire]
      exact ⟨result, new, hremove, hasked.trans hnew, haccount⟩

theorem findingRoomBy (h : array.storage.Exact) (inquiry : Inquiry ι)
    (number : Nat) (key : Key) :
    ∃ result room, Update.run (findRoomBy inquiry number key) array =
        (result, room) ∧
      Descends array room ∧ room.contents = array.contents ∧
        ∀ found, result = .ok found → room.storage.isFull found = false := by
  simp only [findRoomBy, Update.run_bind, Update.run_view]
  cases hfull : array.storage.isFull number with
  | false =>
      refine ⟨_, _, rfl, .refl h, rfl, fun found hfound => ?_⟩
      rw [← Except.ok.inj hfound]
      exact hfull
  | true =>
      have hcount : number < array.storage.segmentCount := by
        simp only [Storage.isFull, Bool.and_eq_true, decide_eq_true_eq] at hfull
        exact hfull.1
      obtain ⟨result, room, hrebalance, hrebalancing⟩ :=
        rebalancing h hcount true
      have hroom := hrebalancing.descends h
      have hcontents := hrebalancing.contents_eq h hcount
      simp only [if_true, Update.run_bind, hrebalance]
      cases result with
      | error fault => exact ⟨_, _, rfl, hroom, hcontents, by simp⟩
      | ok _ =>
          have hasked := hroom.trans
            (.reindexed hroom.exact (inquiry room.index key).2)
          simp only [run_inquire, Update.run_view]
          cases hstill : room.storage.isFull (inquiry room.index key).1 with
          | true => exact ⟨_, _, rfl, hasked, hcontents, by simp⟩
          | false =>
              refine ⟨_, _, rfl, hasked, hcontents, fun found hfound => ?_⟩
              rw [← Except.ok.inj hfound]
              exact hstill

theorem storingBy (h : array.storage.Exact) (inquiry : Inquiry ι)
    (entry : Entry) (hfree : array.storage.isFull number = false) :
    ∃ result new, Update.run (storeBy inquiry number entry) array =
        (result, new) ∧
      Descends array new ∧
        accountOfInsertion entry array.contents new.contents result := by
  simp only [storeBy, Update.run_bind]
  obtain ⟨fault, hplace⟩ | ⟨placed, hplace, hplaced, hcount, hcontents⟩ :=
    placing h entry hfree
  · simp only [Update.run_of_eq hplace]
    exact ⟨_, _, rfl, .refl h, trivial⟩
  · obtain ⟨result, new, hrebalance, hrebalancing⟩ :=
      rebalancing hplaced.exact hcount false
    have hnew := hplaced.trans (hrebalancing.descends hplaced.exact)
    simp only [Update.run_of_eq hplace, Update.run_onFault, hrebalance]
    cases result with
    | ok _ =>
        rw [← hrebalancing.contents_eq hplaced.exact hcount] at hcontents
        exact ⟨_, _, rfl, hnew, hcontents⟩
    | error fault =>
        -- The withdrawal may be sent to another entry of the key, or to none.
        obtain ⟨result, rest, hremove, hrest, -⟩ :=
          removingBy hnew.exact inquiry entry.key
        simp only [Update.run_bind, hremove]
        cases result <;> exact ⟨_, _, rfl, hnew.trans hrest, trivial⟩

theorem insertingFrom (h : array.storage.Exact) (inquiry : Inquiry ι)
    (number : Nat) (entry : Entry) :
    ∃ result new, Update.run (insertFrom inquiry number entry) array =
        (result, new) ∧
      Descends array new ∧
        accountOfInsertion entry array.contents new.contents result := by
  simp only [insertFrom, Update.run_bind, Update.run_ask]
  cases array.storage.position? number entry.key with
  | error fault => exact ⟨_, _, rfl, .refl h, trivial⟩
  | ok found =>
      cases found with
      | some offset => exact ⟨_, _, rfl, .refl h, rfl⟩
      | none =>
          obtain ⟨result, room, hfindRoom, hroom, hcontents, hfree⟩ :=
            findingRoomBy h inquiry number entry.key
          simp only [Update.run_bind, hfindRoom]
          cases result with
          | error fault => exact ⟨_, _, rfl, hroom, trivial⟩
          | ok found =>
              obtain ⟨result, new, hstore, hnew, haccount⟩ :=
                storingBy hroom.exact inquiry entry (hfree found rfl)
              rw [hcontents] at haccount
              exact ⟨result, new, hstore, hroom.trans hnew, haccount⟩

theorem insertingBy (h : array.storage.Exact) (inquiry : Inquiry ι) (key : Key)
    (value : Value) :
    ∃ result new, Update.run (insertBy inquiry key value) array =
        (result, new) ∧
      Descends array new ∧
        accountOfInsertion ⟨key, value⟩ array.contents new.contents result := by
  have hasked := Descends.reindexed h (inquiry array.index key).2
  obtain ⟨result, new, hinsert, hnew, haccount⟩ :=
    insertingFrom hasked.exact inquiry (inquiry array.index key).1 ⟨key, value⟩
  simp only [insertBy, Update.run_bind, run_inquire]
  exact ⟨result, new, hinsert, hasked.trans hnew, haccount⟩

/-! ## Histories -/

/--
The arrays that insertions and removals can lead to when every lookup answers as
it likes, and those that they pass through: between any two steps on the storage
the index may become whatever it likes.
-/
inductive Attained (config : Config ρ) : PackedArray ρ ι → Prop
  | created {array : PackedArray ρ ι} (h : ofConfig config = .ok array) :
      Attained config array
  | inserted {array : PackedArray ρ ι} (h : Attained config array)
      (inquiry : Inquiry ι) (key : Key) (value : Value) :
      Attained config (insertBy inquiry key value array).state
  | removed {array : PackedArray ρ ι} (h : Attained config array)
      (inquiry : Inquiry ι) (key : Key) :
      Attained config (removeBy inquiry key array).state
  | reindexed {array : PackedArray ρ ι} (h : Attained config array)
      (index : ι) : Attained config { array with index }
  | put {array : PackedArray ρ ι} (h : Attained config array) (number : Nat)
      (entry : Entry) : Attained config
        { array with storage := (array.storage.insert number entry).2 }
  | taken {array : PackedArray ρ ι} (h : Attained config array)
      (number offset : Nat) : Attained config
        { array with storage := (array.storage.removeAt number offset).2 }
  | spread {array : PackedArray ρ ι} (h : Attained config array)
      (window : Window) : Attained config (spread window array).state
  | grown {array : PackedArray ρ ι} (h : Attained config array) :
      Attained config (grow array).state

variable {config : Config ρ}

theorem Attained.exact (h : Attained config array) : array.storage.Exact := by
  induction h with
  | created h =>
      obtain ⟨capacity, -, husable, rfl⟩ := exists_of_ofConfig h
      exact Storage.exact_blank husable
  | inserted _ inquiry key value ih =>
      obtain ⟨result, new, hinsert, hnew, -⟩ := insertingBy ih inquiry key value
      rw [(Prod.mk.inj hinsert).2]
      exact hnew.exact
  | removed _ inquiry key ih =>
      obtain ⟨result, new, hremove, hnew, -⟩ := removingBy ih inquiry key
      rw [(Prod.mk.inj hremove).2]
      exact hnew.exact
  | reindexed _ index ih => exact ih
  | put _ number entry ih => exact ih.perform (.insert number entry)
  | taken _ number offset ih => exact ih.perform (.removeAt number offset)
  | spread _ window ih => exact (spreading ih window).1
  | grown _ ih => exact (growing ih).1

omit [Quantity ρ] in
theorem validate_of_exact (h : array.storage.Exact) {fault : Fault}
    (hfault : array.validate = .error fault) :
    fault = .corrupted .unsorted ∨
      ∃ actual expected, fault = .corrupted (.wrongIndex actual expected) := by
  have hfits : ¬array.storage.capacity < array.storage.total :=
    Nat.not_lt.mpr h.total_le_capacity
  simp only [validate, if_neg hfits, h.miscount?_eq_none, ← h.total_eq, ne_eq,
    not_true_eq_false, if_false, h.leaders_range, bind, Except.bind] at hfault
  split at hfault
  · exact .inl (Except.error.inj hfault).symm
  · split at hfault
    · contradiction
    · exact .inr ⟨_, _, (Except.error.inj hfault).symm⟩

/--
Whatever the index answers, counters stay right, entries keep their order when
they are spread, and each call accounts for all that it stores or takes out.
-/
theorem attained_loses_nothing (h : Attained config array) :
    (∀ fault, array.validate = .error fault →
      fault = .corrupted .unsorted ∨
        ∃ actual expected, fault = .corrupted (.wrongIndex actual expected)) ∧
      (∀ window,
        (spread window array).state.storage.entries = array.storage.entries) ∧
      (grow array).state.storage.entries = array.storage.entries ∧
      (∀ inquiry key value,
        accountOfInsertion ⟨key, value⟩ array.contents
          (insertBy inquiry key value array).state.contents
          (insertBy inquiry key value array).result) ∧
      ∀ inquiry key,
        accountOfRemoval key array.contents
          (removeBy inquiry key array).state.contents
          (removeBy inquiry key array).result := by
  have hexact := h.exact
  refine ⟨fun fault => validate_of_exact hexact,
    fun window => (spreading hexact window).2, (growing hexact).2,
    fun inquiry key value => ?_, fun inquiry key => ?_⟩
  · obtain ⟨result, new, hinsert, -, haccount⟩ :=
      insertingBy hexact inquiry key value
    obtain ⟨hresult, hnew⟩ := Prod.mk.inj hinsert
    rw [hresult, hnew]
    exact haccount
  · obtain ⟨result, new, hremove, -, haccount⟩ :=
      removingBy hexact inquiry key
    obtain ⟨hresult, hnew⟩ := Prod.mk.inj hremove
    rw [hresult, hnew]
    exact haccount

structure Turning where
  turn : Nat

namespace Turning

instance : OrderIndex Turning where
  empty := ⟨0⟩
  predecessor index _ := index.turn
  insert index _ _ := index
  removeAny index _ := (none, index)
  clear _ := ⟨0⟩
  size _ := 0
  entries _ := []
  memory _ := 0

def next : Inquiry Turning := fun index _ =>
  (index.turn % 2, ⟨index.turn + 1⟩)

end Turning

def strayed : PackedArray Rat Turning :=
  (insertBy Turning.next 1 20
    (insertBy Turning.next 1 10 (blank fourSlots.policy 4)).state).state

theorem strayed_loses_nothing :
    strayed.storage.entries = [⟨1, 10⟩, ⟨1, 20⟩] ∧
      (grow strayed).state.storage.entries = strayed.storage.entries ∧
      (removeBy Turning.next 1 strayed).result = .ok (some 10) ∧
      strayed.contents =
        ⟨1, 10⟩ ::ₘ (removeBy Turning.next 1 strayed).state.contents := by
  have hattained : Attained fourSlots strayed :=
    .inserted (.inserted (.created created_fourSlots) _ 1 10) _ 1 20
  obtain ⟨-, -, hgrow, -, hremove⟩ := attained_loses_nothing hattained
  have hresult : (removeBy Turning.next 1 strayed).result = .ok (some 10) := by
    decide +kernel
  have haccount := hremove Turning.next 1
  rw [hresult] at haccount
  exact ⟨by decide +kernel, hgrow, hresult, haccount⟩

end PackedArray

end PackedMemory
