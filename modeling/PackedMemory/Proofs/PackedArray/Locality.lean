import PackedMemory.Proofs.PackedArray.Clearing
import PackedMemory.Proofs.PackedArray.Spreading

/-!
# How far an insertion reaches

An insertion may spread twice: once the pair of a full segment, to make room,
and once whatever the new entry overfills.  Both windows lie around one pair of
segments, so the larger holds the smaller, and which one it is can be read off
the counts before the insertion.  No segment outside it changes, and since
counters and leaders are determined by the segments, neither do these.
-/

namespace PackedMemory

namespace Window

theorem mem_segments_around {segment level number : Nat} :
    number ∈ (around segment level).segments ↔
      number / lengthAt level = segment / lengthAt level := by
  rw [mem_segments]
  constructor
  · rintro ⟨hlow, hhigh⟩
    exact div_lengthAt_of_mem hlow hhigh
  · intro hsame
    rw [← around_congr hsame]
    exact ⟨around_start_le number level, lt_around_end number level⟩

theorem length_around_ne_one {level : Nat} (h : 2 ≤ level) (segment : Nat) :
    (around segment level).length ≠ 1 := by
  have htwo := Nat.le_of_dvd (lengthAt_pos level) (lengthAt_dvd h)
  rw [around_length]
  intro hone
  rw [hone] at htwo
  contradiction

end Window

namespace PackedArray

section Scopes

variable {ρ ι : Type} [Quantity ρ]

/-- The levels at which one more element overfills a window around a segment. -/
def crowdedLevels (array : PackedArray ρ ι) (segment : Nat) : Set Nat :=
  {level | 2 ≤ level ∧ level ≤ array.storage.height ∧
    array.gauge.isOverfull level
      (array.storage.occupied (Window.around segment level) + 1) = true}

theorem exists_isGreatest_crowdedLevels {array : PackedArray ρ ι}
    {segment : Nat} (h : array.crowdedLevels segment ≠ ∅) :
    ∃ highest, IsGreatest (array.crowdedLevels segment) highest := by
  have hbounded : BddAbove (array.crowdedLevels segment) :=
    ⟨array.storage.height, fun _ hlevel => hlevel.2.1⟩
  exact ⟨_, Nat.sSup_mem (Set.nonempty_iff_ne_empty.mpr h) hbounded,
    fun _ hlevel => le_csSup hbounded hlevel⟩

def roomyLevels (array : PackedArray ρ ι) (segment least : Nat) : Set Nat :=
  {level | least < level ∧ level ≤ array.storage.height ∧
    array.gauge.isSpreadable level
      (array.storage.occupied (Window.around segment level) + 1) = true}

/-- The window that the insertion of a key next to `segment` may change. -/
inductive Scope (array : PackedArray ρ ι) (segment : Nat) : Window → Prop
  | alone (hnone : array.crowdedLevels segment = ∅)
      (hfree : array.storage.isFull segment = false) :
      Scope array segment ⟨segment, 1⟩
  | pair (hnone : array.crowdedLevels segment = ∅)
      (hfull : array.storage.isFull segment = true) :
      Scope array segment (Window.around segment 2)
  | ancestor {highest level : Nat}
      (hhighest : IsGreatest (array.crowdedLevels segment) highest)
      (hlevel : IsLeast (array.roomyLevels segment highest) level) :
      Scope array segment (Window.around segment level)

def ExchangesLeader [OrderIndex ι] (segment : Nat) (old new : PackedArray ρ ι) :
    Prop :=
  ∃ (before after : List Leader) (former latter : Option Key),
    OrderIndex.entries old.index =
      before ++ (former.map fun key => (key, segment)).toList ++ after ∧
    OrderIndex.entries new.index =
      before ++ (latter.map fun key => (key, segment)).toList ++ after

structure Localized [OrderIndex ι] (segment : Nat) (window : Window)
    (old new : PackedArray ρ ι) : Prop where
  scope : Scope old segment window
  confined : Confined window old new
  exchangesLeader : window.length = 1 → ExchangesLeader segment old new

end Scopes

variable {ρ ι : Type} [Quantity ρ] [OrderIndex ι] [LawfulIndex ι]
  {array room placed new : PackedArray ρ ι} {key : Key} {value : Value}
  {number : Nat}

omit [Quantity ρ] in
theorem confined_around (h : Consistent array) (hnew : Consistent new)
    (hcount : new.storage.segmentCount = array.storage.segmentCount)
    {segment level : Nat}
    (hsegments : ∀ other,
      other / Window.lengthAt level ≠ segment / Window.lengthAt level →
        new.storage.segments[other]? = array.storage.segments[other]?) :
    Confined (Window.around segment level) array new :=
  confined_of_segments h.exact.tallied hnew.exact.tallied h.index_eq
    hnew.index_eq hcount fun other hother =>
      hsegments other (mt Window.mem_segments_around.mpr hother)

/-! ## Room for a key -/

structure Readies (key : Key) (number : Nat) (old new : PackedArray ρ ι) :
    Prop where
  run_eq : Update.run (findRoom (old.predecessor key) key) old =
    (.ok number, new)
  rearranges : Rearranges old new
  sameShape : SameShape old new
  eq_predecessor : number = new.predecessor key
  isFull_eq : new.storage.isFull number = false
  div_two_eq : number / 2 = old.predecessor key / 2
  occupied_eq : ∀ level, 2 ≤ level → level ≤ old.storage.height →
    new.storage.occupied (Window.around (old.predecessor key) level) =
      old.storage.occupied (Window.around (old.predecessor key) level)
  segment_eq : ∀ other, other / 2 ≠ old.predecessor key / 2 →
    new.storage.segments[other]? = old.storage.segments[other]?
  eq_of_free : old.storage.isFull (old.predecessor key) = false →
    number = old.predecessor key ∧ new = old

theorem readies_of_free (h : Consistent array)
    (hfree : array.storage.isFull (array.predecessor key) = false) :
    Readies key (array.predecessor key) array array where
  run_eq := by
    simp only [findRoom, Update.run_bind, Update.run_view, hfree,
      Bool.false_eq_true, if_false]
    rfl
  rearranges := .refl h
  sameShape := ⟨rfl, rfl, rfl, rfl⟩
  eq_predecessor := rfl
  isFull_eq := hfree
  div_two_eq := rfl
  occupied_eq _ _ _ := rfl
  segment_eq _ _ := rfl
  eq_of_free _ := ⟨rfl, rfl⟩

section Exactly

variable {ι : Type} [OrderIndex ι] [LawfulIndex ι]
  {array room placed new : PackedArray Rat ι} {segment : Segment}

theorem readies_of_full (h : Consistent array)
    (hfits : array.FitsAround (array.predecessor key))
    (hfull : array.storage.isFull (array.predecessor key) = true)
    (hroom : room = array.spreadOut (Window.around (array.predecessor key) 2)) :
    Readies key (room.predecessor key) array room := by
  have hclears := hfits.clearsPair h hfull
  have hnumber := h.predecessor_lt key
  have htwo := h.exact.two_le_height
  subst hroom
  refine
    { run_eq := hclears.findRoom_eq
      rearranges := hclears.rearranges
      sameShape := sameShape_spreadOut h hnumber htwo
      eq_predecessor := rfl
      isFull_eq := hclears.isFull_eq
      div_two_eq := hclears.div_two_eq
      occupied_eq := fun level hlow _ => ?_
      segment_eq := fun other hother => ?_
      eq_of_free := fun hfree => ?_ }
  · obtain ⟨hstart, hend⟩ := Window.around_within hlow
      (Eq.refl (array.predecessor key / Window.lengthAt level))
    exact Storage.occupied_dealOut_of_within (Window.lengthAt_pos 2)
      (h.exact.around_le hnumber htwo) hstart hend
  · exact array.getElem?_spreadOut (mt Window.mem_segments_around.mp hother)
  · rw [hfull] at hfree
    contradiction

theorem exists_readies {config : Config Rat} (h : Reachable config array)
    (key : Key) : ∃ number room, Readies key number array room := by
  have hconsistent := h.consistent
  cases hfull : array.storage.isFull (array.predecessor key) with
  | false => exact ⟨_, _, readies_of_free hconsistent hfull⟩
  | true =>
      have hfilled := (hconsistent.exact.isFull_iff
        (hconsistent.predecessor_lt key)).mp hfull
      exact ⟨_, _, readies_of_full hconsistent (h.tended _ hfilled) hfull rfl⟩

end Exactly

section Placed

variable {segment : Segment} {level : Nat}

theorem Readies.sameShape_placed (h : Readies key number array room)
    (hplaces : Places number segment ⟨key, value⟩ room placed) :
    SameShape array placed :=
  h.sameShape.trans (hplaces.toExchanges.sameShape h.rearranges.consistent)

theorem Readies.around_eq (h : Readies key number array room)
    (hlow : 2 ≤ level) : Window.around number level =
      Window.around (array.predecessor key) level :=
  Window.around_congr (Window.div_lengthAt_congr hlow h.div_two_eq)

theorem Readies.readingAt_eq (h : Readies key number array room)
    (hplaces : Places number segment ⟨key, value⟩ room placed)
    (hlow : 2 ≤ level) (hhigh : level ≤ array.storage.height) :
    placed.readingAt number level =
      { level
        window := Window.around (array.predecessor key) level
        elements := array.storage.occupied
          (Window.around (array.predecessor key) level) + 1
        overfull := array.gauge.isOverfull level (array.storage.occupied
          (Window.around (array.predecessor key) level) + 1) } := by
  have hcount : placed.storage.occupied (Window.around number level) =
      array.storage.occupied
        (Window.around (array.predecessor key) level) + 1 := by
    rw [Storage.occupied_eq_succ hplaces.filled_eq
      (around_start_le number level) (lt_around_end number level),
      h.around_eq hlow, h.occupied_eq level hlow hhigh]
  rw [readingAt, hcount, (h.sameShape_placed hplaces).gauge_eq,
    h.around_eq hlow]

theorem Readies.mem_crowdedLevels (h : Readies key number array room)
    (hplaces : Places number segment ⟨key, value⟩ room placed) :
    level ∈ array.crowdedLevels (array.predecessor key) ↔
      ∃ reading ∈ placed.readings number,
        reading.overfull = true ∧ reading.level = level := by
  have hheight := (h.sameShape_placed hplaces).height_eq
  constructor
  · rintro ⟨hlow, hhigh, hover⟩
    refine ⟨placed.readingAt number level,
      mem_readings.mpr ⟨level, hlow, hheight ▸ hhigh, rfl⟩, ?_, rfl⟩
    rw [h.readingAt_eq hplaces hlow hhigh]
    exact hover
  · rintro ⟨reading, hreading, hover, rfl⟩
    obtain ⟨level, hlow, hhigh, rfl⟩ := mem_readings.mp hreading
    rw [hheight] at hhigh
    rw [h.readingAt_eq hplaces hlow hhigh] at hover ⊢
    exact ⟨hlow, hhigh, hover⟩

theorem Readies.settlingLevels_eq (h : Readies key number array room)
    (hplaces : Places number segment ⟨key, value⟩ room placed) {highest : Nat}
    (hhighest : IsGreatest (array.crowdedLevels (array.predecessor key))
      highest) :
    placed.settlingLevels number =
      array.roomyLevels (array.predecessor key) highest := by
  have hheight := (h.sameShape_placed hplaces).height_eq
  have hgauge := (h.sameShape_placed hplaces).gauge_eq
  ext level
  constructor
  · rintro ⟨hlow, hhigh, hsettles⟩
    rw [hheight] at hhigh
    obtain ⟨hspreadable, hover⟩ := (placed.gauge.settles_iff _ _).mp hsettles
    obtain ⟨reading, hreading, hcrowded, rfl⟩ :=
      (h.mem_crowdedLevels hplaces).mp hhighest.1
    rw [h.readingAt_eq hplaces hlow hhigh, hgauge] at hspreadable
    exact ⟨hover reading hreading hcrowded, hhigh, hspreadable⟩
  · rintro ⟨habove, hhigh, hspreadable⟩
    have hlow := hhighest.1.1.trans habove.le
    refine ⟨hlow, hheight ▸ hhigh, (placed.gauge.settles_iff _ _).mpr ⟨?_, ?_⟩⟩
    · rw [h.readingAt_eq hplaces hlow hhigh, hgauge]
      exact hspreadable
    · intro reading hreading hover
      have hcrowded := (h.mem_crowdedLevels hplaces).mpr
        ⟨reading, hreading, hover, rfl⟩
      exact Nat.lt_of_le_of_lt (hhighest.2 hcrowded) habove

theorem Readies.crowdedLevels_eq_empty_iff (h : Readies key number array room)
    (hplaces : Places number segment ⟨key, value⟩ room placed) :
    array.crowdedLevels (array.predecessor key) = ∅ ↔
      placed.repair number (placed.readings number) false = .leave := by
  rw [repair, Bool.false_and,
    placed.gauge.repair_eq_leave_iff (climbing_readings placed number),
    and_iff_left rfl, Set.eq_empty_iff_forall_notMem]
  constructor
  · intro hnone reading hreading
    rw [Bool.eq_false_iff]
    exact fun hover => hnone _ ((h.mem_crowdedLevels hplaces).mpr
      ⟨reading, hreading, hover, rfl⟩)
  · intro hfits level hlevel
    obtain ⟨reading, hreading, hover, -⟩ :=
      (h.mem_crowdedLevels hplaces).mp hlevel
    rw [hfits reading hreading] at hover
    contradiction

theorem Readies.getElem?_placed (h : Readies key number array room)
    (hplaces : Places number segment ⟨key, value⟩ room placed) {other : Nat}
    (hother : other / 2 ≠ array.predecessor key / 2) :
    placed.storage.segments[other]? = array.storage.segments[other]? := by
  rw [hplaces.toExchanges.getElem?_of_ne, h.segment_eq other hother]
  rintro rfl
  exact hother h.div_two_eq

omit [Quantity ρ] in
theorem Places.exchangesLeader {entry : Entry}
    (h : Places number segment entry array new) (harray : Consistent array) :
    ExchangesLeader number array new := by
  obtain ⟨before, after, hold, hset⟩ :=
    exists_firstKeys_set (Storage.part_eq h.segment_eq)
  have hnew := h.consistent.index_eq
  obtain ⟨index, rfl⟩ := h.exists_index
  rw [withSegment, Storage.parts_setIfInBounds, hset] at hnew
  exact ⟨before, after, _, _, harray.index_eq.trans hold, hnew⟩

theorem Readies.confined (h : Readies key number array room)
    (hplaces : Places number segment ⟨key, value⟩ room placed)
    (harray : Consistent array) (hnew : Consistent new)
    (hlow : 2 ≤ level)
    (hcount : new.storage.segmentCount = placed.storage.segmentCount)
    (hsegments : ∀ other, other ∉ (Window.around number level).segments →
      new.storage.segments[other]? = placed.storage.segments[other]?) :
    Confined (Window.around (array.predecessor key) level) array new := by
  have hshape := h.sameShape_placed hplaces
  refine confined_around harray hnew (hcount.trans hshape.segmentCount_eq)
    fun other hother => ?_
  have hout := mt Window.mem_segments_around.mp hother
  rw [hsegments other (h.around_eq hlow ▸ hout), h.getElem?_placed hplaces]
  -- A segment outside the window is outside the pair, which lies in the window.
  exact fun hpair => hother (Window.div_lengthAt_congr hlow hpair)

theorem Readies.localized_placed (h : Readies key number array room)
    (hplaces : Places number segment ⟨key, value⟩ room placed)
    (harray : Consistent array)
    (hnone : array.crowdedLevels (array.predecessor key) = ∅) :
    ∃ window, Localized (array.predecessor key) window array placed := by
  cases hfull : array.storage.isFull (array.predecessor key) with
  | true =>
      have hconfined := h.confined hplaces harray hplaces.consistent
        (Nat.le_refl 2) rfl fun _ _ => rfl
      exact ⟨_, .pair hnone hfull, hconfined,
        fun hone => absurd hone (Window.length_around_ne_one (Nat.le_refl 2) _)⟩
  | false =>
      obtain ⟨rfl, rfl⟩ := h.eq_of_free hfull
      have hleaf : Window.around (room.predecessor key) 1 =
          ⟨room.predecessor key, 1⟩ :=
        Window.around_of_dvd (Nat.one_dvd _)
      have hconfined :
          Confined (Window.around (room.predecessor key) 1) room placed :=
        confined_around harray hplaces.consistent hplaces.segmentCount_eq
          fun other hother =>
            hplaces.toExchanges.getElem?_of_ne (by simpa using hother)
      exact ⟨_, .alone hnone hfull, hleaf ▸ hconfined,
        fun _ => hplaces.exchangesLeader harray⟩

theorem Readies.localized_spreadOut (h : Readies key number array room)
    (hplaces : Places number segment ⟨key, value⟩ room placed)
    (harray : Consistent array)
    (hsome : array.crowdedLevels (array.predecessor key) ≠ ∅)
    (hlevel : IsLeast (placed.settlingLevels number) level) :
    ∃ window, Localized (array.predecessor key) window array
      (placed.spreadOut (Window.around number level)) := by
  obtain ⟨highest, hhighest⟩ := exists_isGreatest_crowdedLevels hsome
  obtain ⟨hlow, hhigh, -⟩ := hlevel.1
  have hwindow := hplaces.consistent.exact.around_le hplaces.lt_segmentCount
    hhigh
  have hlength := Window.lengthAt_pos level
  have hspread := rearranges_spreadOut hplaces.consistent hlength hwindow
  rw [h.settlingLevels_eq hplaces hhighest] at hlevel
  exact ⟨_, .ancestor hhighest hlevel,
    h.confined hplaces harray hspread.consistent hlow
      (placed.segmentCount_spreadOut _) fun _ => placed.getElem?_spreadOut,
    fun hone => absurd hone (Window.length_around_ne_one hlow _)⟩

end Placed

/-! ## Locality -/

theorem run_rebalance_of_insert (h : Consistent array)
    (habsent : array.find? key = none)
    (hroom : Update.run (findRoom (array.predecessor key) key) array =
      (.ok number, room))
    (hplace : Update.run (place number ⟨key, value⟩) room = (.ok (), placed))
    (hresult : (insert key value array).result = .ok true) :
    Update.run (rebalance number false) placed =
      (.ok (), (insert key value array).state) := by
  obtain ⟨segment, hsegment⟩ := h.exists_predecessor key
  have hposition := Storage.position?_eq hsegment key
  rw [(h.position?_eq_none_iff hsegment).mpr habsent] at hposition
  have hrun : Update.run (insert key value) array =
      (.ok true, (insert key value array).state) := by
    rw [← hresult]
    rfl
  generalize (insert key value array).state = final at hrun ⊢
  simp only [insert, Update.run_bind, Update.run_view, Update.run_ask,
    hposition, hroom, hplace, Update.run_onFault, Update.run_fail] at hrun
  rcases hrebalance : Update.run (rebalance number false) placed with
    ⟨_ | _, new⟩
  · rcases hremove : Update.run (remove key) new with ⟨_ | _, rest⟩ <;>
      simp [hrebalance, hremove] at hrun
  · rw [hrebalance] at hrun
    exact congrArg _ (Prod.mk.inj hrun).2

/--
An insertion changes one window around the segment its key leads to: the lowest
that takes in whatever is overfull, or else the pair of a full segment, or else
the segment alone.
-/
theorem insert_localized {ι : Type} [OrderIndex ι] [LawfulIndex ι]
    {array : PackedArray Rat ι} {config : Config Rat}
    (h : Reachable config array) (habsent : array.find? key = none)
    (hresult : (insert key value array).result = .ok true)
    (hcapacity : (insert key value array).state.capacity = array.capacity) :
    ∃ window, Localized (array.predecessor key) window array
      (insert key value array).state := by
  have harray := h.consistent
  obtain ⟨number, room, hreadies⟩ := exists_readies h key
  have hroom := hreadies.rearranges
  obtain rfl := hreadies.eq_predecessor
  obtain ⟨segment, placed, hplace, hplaces⟩ :=
    place_of_isFull_eq_false hroom.consistent value
      (hroom.find?_eq harray key ▸ habsent) hreadies.isFull_eq
  have hrebalance := run_rebalance_of_insert harray habsent hreadies.run_eq
    (Update.run_of_eq hplace) hresult
  -- Without growth, all that can follow is a spread of a larger window.
  rw [← hreadies.sameShape.capacity_eq, ← hplaces.capacity_eq] at hcapacity
  obtain ⟨hleave, hnew⟩ | ⟨hrepair, level, hlevel, hnew⟩ :=
    eq_of_run_rebalance hplaces.consistent.exact hplaces.lt_segmentCount
      hrebalance hcapacity
  · rw [hnew]
    exact hreadies.localized_placed hplaces harray
      ((hreadies.crowdedLevels_eq_empty_iff hplaces).mpr hleave)
  · rw [hnew]
    exact hreadies.localized_spreadOut hplaces harray
      (mt (hreadies.crowdedLevels_eq_empty_iff hplaces).mp hrepair) hlevel

/-- Eight segments, with one entry less than overfills the first two. -/
def fullPair (ι : Type) [OrderIndex ι] : PackedArray Rat ι :=
  (extend ((List.range 14).map fun number => ⟨Int64.ofNat number, 0⟩)
    (blank (Config.policy { initialCapacity := 64 }) 64)).state

theorem reachable_fullPair {ι : Type} [OrderIndex ι] :
    Reachable { initialCapacity := 64 } (fullPair ι) :=
  .extended (.created (ofConfig_eq (by decide +kernel) (by decide +kernel))) _

/-- The pair is spread to make room, and then the four segments around it. -/
theorem insert_localized_fullPair :
    (∃ window, Localized ((fullPair SortedIndex).predecessor 14) window
      (fullPair SortedIndex) (insert 14 1 (fullPair SortedIndex)).state) ∧
    ∃ window, Localized ((fullPair TreeIndex).predecessor 14) window
      (fullPair TreeIndex) (insert 14 1 (fullPair TreeIndex)).state :=
  ⟨insert_localized reachable_fullPair (by decide +kernel) (by decide +kernel)
      (by decide +kernel),
    insert_localized reachable_fullPair (by decide +kernel) (by decide +kernel)
      (by decide +kernel)⟩

end PackedArray

end PackedMemory
