import PackedMemory.Proofs.PackedArray.Checked
import PackedMemory.Proofs.PackedArray.Range

/-!
# Accesses of an array

From a consistent array no check fails: the index names segments that are there,
repairs redistribute windows that are there, and room is only looked for where
it has been made.
-/

namespace PackedMemory

namespace Storage

variable {storage : Storage}

theorem Exact.seekChecked_eq (h : storage.Exact) (passes : Slot → Bool)
    {count position : Nat} (hcells : position + count ≤ storage.row.size) :
    storage.seekChecked passes count position =
      .ok (storage.seekWithin passes count position) := by
  induction count generalizing position with
  | zero => rfl
  | succ count ih =>
      have hcell : position < storage.row.size := by omega
      have hslot : storage.row[position]? =
          some (storage.slotAt position) := by
        rw [h.slotAt_eq, row, List.getElem?_toArray,
          List.getElem?_eq_getElem (by simpa [row] using hcell)]
        rfl
      rw [seekChecked, Checked.readCell_eq hslot, Checked.ok_bind, seekWithin]
      split
      · exact ih (by omega)
      · rfl

theorem Exact.seekChecked_row (h : storage.Exact) (passes : Slot → Bool)
    {position : Nat} (hposition : position ≤ storage.capacity) :
    storage.seekChecked passes (storage.row.size - position) position =
      .ok (storage.seek passes position) := by
  have hsize : storage.row.size = storage.capacity := h.size_row
  rw [seek, ← hsize]
  rw [← hsize] at hposition
  exact h.seekChecked_eq passes (Nat.add_sub_cancel' hposition).le

end Storage

namespace PackedArray

open CheckedUpdate

variable {ρ ι : Type} [OrderIndex ι] [LawfulIndex ι] [CheckedIndex ι]
  {array : PackedArray ρ ι} {number : Nat} {window : Window}

section Steps

omit [OrderIndex ι] [LawfulIndex ι] [CheckedIndex ι]

variable {α : Type}

theorem tracks_changeStorage
    {checked : Storage → Checked (Except Fault α × Storage)}
    {step : Storage → Except Fault α × Storage}
    (h : checked array.storage = .ok (step array.storage)) :
    Tracks (changeStorage checked) (onStorage step) array := by
  rw [Tracks, changeStorage, h]
  rfl

theorem run_onStorage {step : Storage → Except Fault α × Storage} {value : α}
    {storage : Storage} (h : step array.storage = (.ok value, storage)) :
    Update.run (onStorage step) array = (.ok value, { array with storage }) := by
  rw [Update.run, onStorage, h]

theorem tracks_changeIndex {checked : ι → Checked ι} {change : ι → ι}
    (h : checked array.index = .ok (change array.index)) :
    Tracks (changeIndex checked) (onIndex change) array := by
  rw [Tracks, changeIndex, h]
  rfl

theorem isEmptyChecked_eq (h : array.storage.Exact) :
    array.isEmptyChecked = .ok array.isEmpty := by
  rw [isEmptyChecked, h.totalChecked_eq]
  rfl

theorem isCrammedChecked_eq (h : array.storage.Exact) :
    array.isCrammedChecked = .ok array.isCrammed := by
  rw [isCrammedChecked, h.totalChecked_eq]
  rfl

end Steps

theorem predecessorChecked_eq (h : Consistent array) (key : Key) :
    array.predecessorChecked key = .ok (array.predecessor key) :=
  CheckedIndex.predecessorChecked_eq h.valid key

theorem tracks_spread (h : Consistent array) (hlength : 0 < window.length)
    (hwindow : window.start + window.length ≤ array.storage.segmentCount) :
    Tracks (spreadChecked window) (spread window) array := by
  have hexact := h.exact
  have hdrained := hexact.exact_overwrite window.start
    (array.storage.length_of_mem_blanks window)
  refine .bind_of_eq (tracks_ask (hexact.leadersChecked_eq _))
    (congrArg (·, array) (hexact.leaders_range' hwindow)) ?_
  refine .bind_of_eq
    (tracks_changeIndex (CheckedIndex.removeAllChecked_eq h.valid _)) rfl ?_
  refine .bind_of_eq (tracks_changeStorage (hexact.drainChecked_eq window))
    (run_onStorage (hexact.drain_eq hlength hwindow)) ?_
  refine .bind_of_eq (tracks_free _ _) rfl ?_
  refine .bind (tracks_changeStorage
    (hdrained.fillChecked_eq (Storage.occupied_blanks hwindow)))
    fun filled new hrun => ?_
  obtain ⟨-, rfl⟩ := Prod.mk.inj hrun
  exact tracks_changeIndex (CheckedIndex.insertAllChecked_eq
    (LawfulIndex.valid_removeAll h.valid _) _)

theorem tracks_grow (h : Consistent array) :
    Tracks growChecked grow array := by
  have husable := usable_double h.exact
  have hblank := Storage.exact_blank husable
  refine .bind_of_eq (tracks_free _ _) rfl ?_
  refine .bind (tracks_free _ _) fun blank new hrun => ?_
  obtain ⟨hreserve, rfl⟩ := Prod.mk.inj hrun
  obtain rfl := eq_blank_of_reserve husable hreserve
  refine .bind_of_eq (tracks_free _ _) rfl ?_
  refine .bind_of_eq (tracks_free _ _) rfl ?_
  refine .view_bind (hblank.fillChecked_eq (Storage.occupied_blank _ _)) ?_
  generalize Storage.fill _ _ _ = filling
  obtain ⟨result, grown⟩ := filling
  refine .bind (tracks_free _ _) fun leaders new hrun => ?_
  obtain ⟨-, rfl⟩ := Prod.mk.inj hrun
  refine .bind_of_eq (tracks_changeIndex (CheckedIndex.insertAllChecked_eq
    (LawfulIndex.valid_clear _) _)) rfl ?_
  exact .bind_of_eq (tracks_free _ _) rfl (tracks_free _ _)

variable [Quantity ρ]

omit [OrderIndex ι] [LawfulIndex ι] [CheckedIndex ι] in
theorem measureChecked_eq (h : array.storage.Exact)
    (hnumber : number < array.storage.segmentCount) :
    (array.measureChecked number).run = .ok (array.measure number) := by
  refine CheckedAnswer.run_mapM_eq fun level hlevel => ?_
  obtain ⟨hlow, hhigh⟩ := List.mem_range'_1.mp hlevel
  have hheight : level ≤ array.storage.height := by omega
  have hwindow := h.around_le hnumber hheight
  have helements : array.storage.elements (Window.around number level) =
      .ok (array.storage.counts.elements _ _) := if_pos hwindow
  rw [CheckedAnswer.run_lift_bind_eq (h.elementsChecked_eq hwindow)]
  simp only [helements]
  rfl

omit [OrderIndex ι] [LawfulIndex ι] [CheckedIndex ι] in
theorem repairChecked_eq (h : array.storage.Exact) (readings : List Reading)
    (needsGap : Bool) :
    array.repairChecked number readings needsGap =
      .ok (array.repair number readings needsGap) := by
  rw [repairChecked, h.isFullChecked_eq]
  rfl

theorem tracks_rebalance (h : Consistent array)
    (hnumber : number < array.storage.segmentCount) (needsGap : Bool) :
    Tracks (rebalanceChecked number needsGap) (rebalance number needsGap)
      array := by
  have hexact := h.exact
  refine .bind_of_eq (tracks_view (isCrammedChecked_eq hexact))
    (Update.run_view _ _) ?_
  cases array.isCrammed with
  | true => exact tracks_grow h
  | false =>
      refine .bind_of_eq (tracks_ask (measureChecked_eq hexact hnumber))
        (congrArg (·, array) (measure_eq hexact hnumber)) ?_
      refine .bind_of_eq (tracks_free _ _) (Update.run_emit _ _) ?_
      refine .bind_of_eq (tracks_view (repairChecked_eq hexact _ needsGap))
        (Update.run_view _ _) ?_
      cases hrepair : array.repair number (array.readings number) needsGap with
      | leave => exact tracks_pure _ _
      | grow => exact tracks_grow h
      | spread window =>
          obtain ⟨level, rfl, ⟨-, hhigh, -⟩, -⟩ := isLeast_of_repair hrepair
          exact tracks_spread h (Window.lengthAt_pos level)
            (hexact.around_le hnumber hhigh)

/-! ## Changes -/

omit [OrderIndex ι] [LawfulIndex ι] [CheckedIndex ι] [Quantity ρ] in
theorem tracks_ensureGap {α : Type} {next : CheckedUpdate (PackedArray ρ ι) α}
    {update : Update (PackedArray ρ ι) α} (h : array.storage.Exact)
    (hfree : array.storage.isFull number = false)
    (hnext : Tracks next update array) :
    Tracks (ensureGap number >>= fun _ => next) update array := by
  have hensure : (array.storage.isFullChecked number >>= fun full =>
      Checked.ensure !full) = .ok () := by
    rw [h.isFullChecked_eq, hfree]
    rfl
  exact .view_bind hensure hnext

theorem tracks_findRoom (h : Consistent array) (key : Key) :
    Tracks (findRoomChecked (array.predecessor key) key)
      (findRoom (array.predecessor key) key) array := by
  have hcount := h.predecessor_lt key
  refine .bind_of_eq (tracks_view (h.exact.isFullChecked_eq _))
    (Update.run_view _ _) ?_
  cases hfull : array.storage.isFull (array.predecessor key) with
  | false => exact tracks_ensureGap h.exact hfull (tracks_pure _ _)
  | true =>
      refine .bind (tracks_rebalance h hcount true) fun _ new hrun => ?_
      obtain ⟨result, room, hrebalance, hrebalancing⟩ :=
        rebalancing h.exact hcount true
      rw [hrebalance] at hrun
      obtain ⟨rfl, rfl⟩ := Prod.mk.inj hrun
      have hroom := (hrebalancing.rearranges h hcount).consistent
      have hfree := hrebalancing.isFull_eq_false h hfull
      refine .bind_of_eq (tracks_view (predecessorChecked_eq hroom key))
        (Update.run_view _ _) ?_
      refine tracks_ensureGap hroom.exact hfree ?_
      change _ = _
      rw [Update.view_bind, hfree]
      rfl

section Single

variable {segment : Segment} {entry : Entry}
  (h : Consistent array)
  (hsegment : array.storage.segments[number]? = some segment)
include h hsegment

omit [Quantity ρ] in
theorem tracks_place
    (hgap : segment.entries.length < array.storage.segmentCapacity) :
    Tracks (placeChecked number entry) (place number entry) array := by
  refine .bind_of_eq (tracks_ask (h.exact.leader?Checked_eq number))
    (congrArg (·, array) (h.exact.leader?_eq hsegment)) ?_
  refine .bind_of_eq
    (tracks_changeStorage (h.exact.insertChecked_eq number entry))
    (run_onStorage (h.exact.insert_eq hsegment hgap entry)) ?_
  cases segment.leads entry.key with
  | false => exact tracks_pure _ _
  | true =>
      simp only [if_true]
      refine tracks_changeIndex ?_
      cases segment.entries.head?.map Entry.key with
      | none => exact CheckedIndex.insertChecked_eq h.valid entry.key number
      | some old => exact CheckedIndex.updateChecked_eq h.valid old entry.key

omit [Quantity ρ] in
theorem tracks_takeOut {offset : Nat}
    (hentry : segment[offset]? = some (some entry)) :
    Tracks (takeOutChecked number offset entry.key)
      (takeOut number offset entry.key) array := by
  have hrest := h.exact.exact_removeAt hsegment offset
  refine .bind (tracks_ask (h.exact.minimumChecked_eq number))
    fun least new hrun => ?_
  obtain ⟨-, rfl⟩ := Prod.mk.inj hrun
  refine .bind_of_eq
    (tracks_changeStorage (h.exact.removeAtChecked_eq number offset))
    (run_onStorage (h.exact.removeAt_eq hsegment hentry)) ?_
  by_cases hleast : least = entry.key
  · simp only [if_pos hleast]
    refine .bind ?_ fun _ _ _ => tracks_pure _ _
    refine .bind (tracks_ask (hrest.leader?Checked_eq number))
      fun next new hrun => ?_
    obtain ⟨-, rfl⟩ := Prod.mk.inj hrun
    refine tracks_changeIndex ?_
    cases next with
    | none =>
        change (CheckedIndex.removeAnyChecked array.index entry.key >>= _) = _
        rw [CheckedIndex.removeAnyChecked_eq h.valid]
        rfl
    | some new => exact CheckedIndex.updateChecked_eq h.valid entry.key new
  · simp only [if_neg hleast]
    exact tracks_pure _ _

end Single

omit [Quantity ρ] in
theorem tracks_search {α : Type} (h : Consistent array) (key : Key)
    {next : Nat → Option Nat → CheckedUpdate (PackedArray ρ ι) α}
    {after : Nat → Option Nat → Update (PackedArray ρ ι) α}
    (hnext : ∀ segment,
      array.storage.segments[array.predecessor key]? = some segment →
      Tracks (next (array.predecessor key) (segment.position? key))
        (after (array.predecessor key) (segment.position? key)) array) :
    Tracks
      (do
        let number ← view fun array => array.predecessorChecked key
        let offset ← ask fun array => array.storage.position?Checked number key
        next number offset)
      (do
        let number ← .view fun array => array.predecessor key
        let offset ← .ask fun array => array.storage.position? number key
        after number offset) array := by
  obtain ⟨segment, hsegment⟩ := h.exists_predecessor key
  refine .bind_of_eq (tracks_view (predecessorChecked_eq h key))
    (Update.run_view _ _) ?_
  refine .bind_of_eq (tracks_ask (h.exact.position?Checked_eq _ key))
    (congrArg (·, array) (Storage.position?_eq hsegment key)) ?_
  exact hnext segment hsegment

theorem tracks_remove (h : Consistent array) (key : Key) :
    Tracks (removeChecked key) (remove key) array := by
  refine .bind_of_eq (tracks_view (isEmptyChecked_eq h.exact))
    (Update.run_view _ _) ?_
  cases array.isEmpty with
  | true => exact tracks_pure _ _
  | false =>
      refine tracks_search h key fun segment hsegment => ?_
      cases hoffset : segment.position? key with
      | none => exact tracks_pure _ _
      | some offset =>
          obtain ⟨entry, hentry, rfl⟩ := Segment.getElem?_of_position? hoffset
          obtain ⟨rest, htakeOut, htakesOut, -⟩ :=
            takeOut_eq h hsegment hentry
          refine .bind_of_eq (tracks_takeOut h hsegment hentry)
            (Update.run_of_eq htakeOut) ?_
          exact .bind (tracks_rebalance htakesOut.consistent
            htakesOut.lt_segmentCount false) fun _ _ _ => tracks_pure _ _

theorem tracks_rebalanceOrWithdraw (h : Consistent array)
    (hnumber : number < array.storage.segmentCount) (key : Key) :
    Tracks
      ((rebalanceChecked number false).onFault fun fault => do
        let _ ← removeChecked key
        free (.fail fault))
      ((rebalance number false).onFault fun fault => do
        let _ ← remove key
        .fail fault) array := by
  refine (tracks_rebalance h hnumber false).onFault fun fault new hrun => ?_
  -- A refused repair has changed nothing, so the removal starts from `array`.
  obtain ⟨result, after, hrebalance, hrebalancing⟩ :=
    rebalancing h.exact hnumber false
  rw [hrebalance] at hrun
  obtain ⟨rfl, rfl⟩ := Prod.mk.inj hrun
  obtain ⟨-, rfl⟩ := hrebalancing.eq_of_error
  exact .bind (tracks_remove h key) fun _ _ _ => tracks_free _ _

theorem tracks_insert (h : Consistent array) (key : Key) (value : Value) :
    Tracks (insertChecked key value) (insert key value) array := by
  refine tracks_search h key fun segment hsegment => ?_
  cases hoffset : segment.position? key with
  | some offset => exact tracks_pure _ _
  | none =>
      have habsent := (h.position?_eq_none_iff hsegment).mp hoffset
      obtain ⟨result, room, hfindRoom, hroom⟩ := roomFinding h key
      -- Room may be found in another segment than the one that was asked for.
      refine .bind (tracks_findRoom h key) fun found new hrun => ?_
      rw [hfindRoom] at hrun
      obtain ⟨rfl, rfl⟩ := Prod.mk.inj hrun
      obtain ⟨rfl, hfree⟩ := hroom.eq_predecessor
      have hrearranges := hroom.rearranges h
      have hconsistent := hrearranges.consistent
      obtain ⟨segment, placed, hplace, hplaces⟩ :=
        place_of_isFull_eq_false hconsistent value
          (hrearranges.find?_eq h key ▸ habsent) hfree
      have hgap := hconsistent.exact.length_lt_of_isFull_eq_false
        hplaces.segment_eq hfree
      refine .bind_of_eq (tracks_place hconsistent hplaces.segment_eq hgap)
        (Update.run_of_eq hplace) ?_
      exact .bind (tracks_rebalanceOrWithdraw hplaces.consistent
        hplaces.lt_segmentCount key) fun _ _ _ => tracks_pure _ _

/-! ## Lookups -/

section Lookups

omit [Quantity ρ]

theorem findChecked_eq (h : Consistent array) (key : Key) :
    array.findChecked key = .ok (array.find? key) := by
  obtain ⟨segment, hsegment⟩ := h.exists_predecessor key
  have hread := Storage.segment_eq hsegment
  rw [findChecked, isEmptyChecked_eq h.exact, Checked.ok_bind, find?]
  split
  · rfl
  · rw [predecessorChecked_eq h, Checked.ok_bind,
      h.exact.position?Checked_eq, Checked.ok_bind,
      Storage.position?_eq hsegment, hread]
    simp only [Segment.find?_eq_bind]
    cases hoffset : segment.position? key with
    | none => rfl
    | some offset =>
        obtain ⟨entry, hentry, -⟩ := Segment.getElem?_of_position? hoffset
        have hcell : segment.toArray[offset]? = some (some entry) := by
          rwa [List.getElem?_toArray]
        simp only [h.exact.segmentChecked_eq, hread, Checked.ok_bind,
          Checked.readCell_eq hcell, Option.bind_some,
          List.getD_eq_getElem?_getD, hentry, Option.getD_some,
          Checked.pure_eq_ok]

theorem endChecked_eq (h : Consistent array) (key : Key)
    (passes : Slot → Bool) {least : Nat}
    (hleast : least ≤ array.storage.capacity) :
    array.endChecked key passes least =
      .ok (array.storage.seek passes
        (max (array.predecessor key * array.storage.segmentCapacity) least)) := by
  rw [endChecked, predecessorChecked_eq h, Checked.ok_bind]
  exact h.exact.seekChecked_row passes (max_le (h.origin_le_capacity key) hleast)

theorem intervalChecked_eq (h : Consistent array) (least greatest : Key) :
    array.intervalChecked least greatest =
      .ok (array.interval least greatest) := by
  rw [intervalChecked, interval]
  by_cases hcross : greatest < least
  · simp [hcross]
  · cases hempty : array.isEmpty with
    | true => simp [hcross, isEmptyChecked_eq h.exact, hempty]
    | false =>
        -- The second search goes on from where the first one has stopped.
        have horigin := h.origin_le_capacity least
        have hstops : array.storage.Stops
          (fun slot => slot.all fun entry => entry.key < least) _ _ _ :=
          Storage.stops_seek horigin
        simp [hcross, isEmptyChecked_eq h.exact, hempty,
          endChecked_eq h least _ (Nat.zero_le _),
          endChecked_eq h greatest _ hstops.le_limit]

omit [CheckedIndex ι] in
theorem readRun_interval (h : Consistent array) (least greatest : Key) :
    Checked.readRun array.storage.row (array.interval least greatest).1
        (array.interval least greatest).2 =
      .ok ((array.storage.slots.drop (array.interval least greatest).1).take
        ((array.interval least greatest).2 -
          (array.interval least greatest).1)) := by
  have hspans := h.spans_interval least greatest
  have hsize : array.storage.row.size = array.capacity := h.exact.size_row
  rw [Checked.readRun_eq hspans.start_le_stop
    (hsize ▸ hspans.stop_le_capacity), Array.toList_extract,
    List.extract_eq_take_drop]
  rfl

theorem rangeChecked_eq (h : Consistent array) (least greatest : Key) :
    ∃ cursor, array.range least greatest = .ok cursor ∧
      array.rangeChecked least greatest = .ok cursor := by
  refine ⟨_, (h.spans_interval least greatest).range_eq, ?_⟩
  simp only [rangeChecked, intervalChecked_eq h, readRun_interval h,
    Checked.ok_bind, Checked.pure_eq_ok]

theorem rangeTotalsChecked_eq (h : Consistent array) (least greatest : Key) :
    ∃ totals, array.rangeTotals least greatest = .ok totals ∧
      array.rangeTotalsChecked least greatest = .ok totals := by
  have hrange := (h.spans_interval least greatest).range_eq
  refine ⟨_, by rw [rangeTotals, hrange]; rfl, ?_⟩
  simp only [rangeTotalsChecked, intervalChecked_eq h, readRun_interval h,
    Checked.ok_bind, Checked.pure_eq_ok]
  rw [Cursor.entries, h.exact.entriesIn_eq]
  rfl

end Lookups

/-! ## Reachable arrays -/

/-- Calls that end in no fault but one, and in which no check fails. -/
structure Guarded (array : PackedArray ρ ι) : Prop where
  insert_fault : ∀ key value fault,
    (insert key value array).result = .error fault →
      ∃ capacity, fault = .allocationFailure capacity
  remove_fault : ∀ key fault, (remove key array).result = .error fault →
    ∃ capacity, fault = .allocationFailure capacity
  insert_checked : ∀ key value,
    insertChecked key value array = .ok (insert key value array)
  remove_checked : ∀ key, removeChecked key array = .ok (remove key array)
  find_checked : ∀ key, array.findChecked key = .ok (array.find? key)
  range_checked : ∀ least greatest, ∃ cursor,
    array.range least greatest = .ok cursor ∧
      array.rangeChecked least greatest = .ok cursor
  rangeTotals_checked : ∀ least greatest, ∃ totals,
    array.rangeTotals least greatest = .ok totals ∧
      array.rangeTotalsChecked least greatest = .ok totals

theorem guarded (h : Consistent array) : Guarded array where
  insert_fault key value fault hfault := by
    obtain ⟨result, new, hrun, hinsertion⟩ := insertion h key value
    have hresult : (insert key value array).result = result :=
      congrArg Prod.fst hrun
    rw [← hresult, hfault] at hinsertion
    obtain ⟨-, hok, -⟩ | ⟨-, hok, -⟩ | ⟨-, ⟨capacity, herror⟩, -⟩ :=
      hinsertion.effect h
    · contradiction
    · contradiction
    · exact ⟨capacity, Except.error.inj herror⟩
  remove_fault key fault hfault := by
    obtain ⟨result, new, hrun, hremoval⟩ := removal h key
    have hresult : (remove key array).result = result :=
      congrArg Prod.fst hrun
    rw [← hresult, hfault] at hremoval
    exact ⟨_, hremoval.eq_of_error h⟩
  insert_checked := tracks_insert h
  remove_checked := tracks_remove h
  find_checked := findChecked_eq h
  range_checked := rangeChecked_eq h
  rangeTotals_checked := rangeTotalsChecked_eq h

/-- With either index the arrays of a configuration are guarded all along. -/
theorem reachable_guarded {ρ : Type} [Quantity ρ] (config : Config ρ) :
    (∀ array : PackedArray ρ SortedIndex, Reachable config array →
      Guarded array) ∧
    ∀ array : PackedArray ρ TreeIndex, Reachable config array →
      Guarded array :=
  ⟨fun _ h => guarded h.consistent, fun _ h => guarded h.consistent⟩

/-- The same array with an index that names a segment beyond the last. -/
def misledEntries : PackedArray Rat SortedIndex :=
  { sixEntries SortedIndex with index := ⟨#[1], #[9]⟩ }

theorem guarded_sixEntries :
    misledEntries.rangeChecked 1 2 = .error (.run 36 36 8) ∧
      Guarded (sixEntries SortedIndex) ∧ Guarded (sixEntries TreeIndex) := by
  obtain ⟨hsorted, htree⟩ := reachable_guarded eightSlots
  exact ⟨by decide +kernel, hsorted _ reachable_sixEntries,
    htree _ reachable_sixEntries⟩

end PackedArray

end PackedMemory
