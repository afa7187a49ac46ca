import PackedMemory.Proofs.PackedArray.Check
import PackedMemory.Proofs.PackedArray.Repair
import PackedMemory.Proofs.Storage.History
import PackedMemory.Proofs.Update

/-!
# What a spread and a growth leave

A window of any place and length can be spread, and an array can grow, whenever
a check accepts the array.  A check does not look at the counters of larger
windows, and a spread does not rely on them either: it draws on those alone that
draining the window has just set.  What comes out is therefore what would come
out if the storage were counted anew, but for these counters.
-/

namespace PackedMemory

open Storage (firstKeys)

namespace Storage

variable {storage : Storage} {window : Window} {entries : List Entry}

structure WellFormed (storage : Storage) : Prop
    extends shaped : storage.Shaped where
  uniform : storage.Uniform
  size_leaves : storage.counts.leaves.size = storage.segmentCount
  tapered : storage.counts.Tapered

theorem Exact.wellFormed (h : storage.Exact) : storage.WellFormed := by
  obtain ⟨depth, hsize, -, -⟩ := h.size_held
  refine { h.shaped with
    uniform := h.length_segment
    size_leaves := h.size_leaves
    tapered := ?_ }
  rw [h.counts_eq]
  exact CountTree.tapered_ofCounts hsize

def recounted (storage : Storage) : Storage :=
  storage.withSegments storage.segments

theorem WellFormed.exact_recounted (h : storage.WellFormed) :
    storage.recounted.Exact :=
  { h.shaped with
    length_segment := h.uniform
    counts_eq := rfl }

theorem Tallied.replace (h : storage.Tallied)
    (hsize : storage.counts.leaves.size = storage.segmentCount) (start : Nat)
    {run : List Segment} {counts : List Nat}
    (hcounts : (run.map fun segment => segment.entries.length) = counts) :
    (storage.replace start run counts).Tallied := by
  intro number segment hsegment
  simp only [Storage.replace, CountTree.record, CountTree.leaf,
    Array.getD_eq_getD_getElem?, getElem?_overwrite] at hsegment ⊢
  rw [← hcounts, List.length_map, hsize]
  split at hsegment
  · rename_i hrun
    rw [if_pos hrun]
    split at hsegment
    · rename_i hnumber
      have hcell : number < storage.segmentCount := hnumber
      rw [if_pos hcell, List.getElem?_map, hsegment]
      rfl
    · contradiction
  · rename_i hrun
    rw [if_neg hrun, ← Array.getD_eq_getD_getElem?]
    exact h number segment hsegment

def drained (storage : Storage) (window : Window) : Storage :=
  storage.replace window.start (storage.blanks window)
    (List.replicate window.length 0)

def refilled (storage : Storage) (window : Window) (entries : List Entry) :
    Storage :=
  (storage.drained window).replace window.start (storage.dealt window entries)
    (shares entries.length window.length)

theorem segments_refilled (storage : Storage) (window : Window)
    (entries : List Entry) :
    (storage.refilled window entries).segments =
      (storage.dealOut window entries).segments :=
  overwrite_overwrite storage.segments window.start (by
    rw [length_blanks, length_dealt])

theorem Tallied.refilled (h : storage.Tallied)
    (hsize : storage.counts.leaves.size = storage.segmentCount)
    (hlength : 0 < window.length) (entries : List Entry) :
    (storage.refilled window entries).Tallied := by
  have hdrained : (storage.drained window).Tallied :=
    h.replace hsize window.start (by simp [blanks])
  refine hdrained.replace ?_ window.start (storage.map_length_dealt hlength _)
  rw [drained, segmentCount_replace, ← hsize]
  exact CountTree.size_leaves_record ..

theorem drain_eq_drained (hlength : 0 < window.length)
    (hwindow : window.start + window.length ≤ storage.segmentCount) :
    storage.drain window =
      (.ok (storage.partsOf window).flatten, storage.drained window) := by
  rw [drain, checkWindow_eq hlength hwindow, flatMap_segmentsOf]
  rfl

/-- The counters that tell whether a window is empty are those just set. -/
theorem WellFormed.elements_drained (h : storage.WellFormed)
    (hwindow : window.start + window.length ≤ storage.segmentCount) :
    (storage.drained window).counts.elements window.start window.length = 0 := by
  have hrun : window.start + (List.replicate window.length 0).length ≤
      storage.counts.leaves.size := by
    rw [List.length_replicate, h.size_leaves]
    exact hwindow
  have hsize : (overwrite storage.counts.leaves window.start
      (List.replicate window.length 0)).size =
        2 ^ storage.counts.above.length := by
    rw [size_overwrite, h.tapered.size_leaves]
  have hstart : (storage.counts.leaves.toList.take window.start).length =
      window.start := by
    rw [List.length_take, Array.length_toList, h.size_leaves]
    omega
  rw [drained, replace, h.tapered.elements_record hrun (Nat.le_refl _)
    (by rw [List.length_replicate]), CountTree.elements_ofCounts hsize (by
      rw [size_overwrite, h.size_leaves]
      exact hwindow), toList_overwrite _ _ _ hrun, List.append_assoc,
    List.drop_left' hstart, List.take_left' List.length_replicate]
  simp

theorem WellFormed.fill_drained (h : storage.WellFormed)
    (hlength : 0 < window.length)
    (hwindow : window.start + window.length ≤ storage.segmentCount)
    (hfit : entries.length ≤ window.length * storage.segmentCapacity) :
    (storage.drained window).fill window entries =
      (.ok (firstKeys window.start
          (deal (shares entries.length window.length) entries)),
        storage.refilled window entries) := by
  have hdrained : window.start + window.length ≤
      (storage.drained window).segmentCount := by
    rw [drained, segmentCount_replace]
    exact hwindow
  have hcapacity : ¬window.length * (storage.drained window).segmentCapacity <
      entries.length := Nat.not_lt.mpr hfit
  simp only [fill, checkWindow_eq hlength hdrained, if_neg hcapacity,
    h.elements_drained hwindow, ne_eq, not_true_eq_false, if_false]
  rfl

end Storage

namespace PackedArray

variable {ρ ι : Type} [OrderIndex ι] {array old new : PackedArray ρ ι}
  {window : Window}

/-! ## Changes within a window -/

structure Confined (window : Window) (old new : PackedArray ρ ι) : Prop where
  segment_eq : ∀ number, number ∉ window.segments →
    new.storage.segments[number]? = old.storage.segments[number]?
  count_eq : ∀ number, number ∉ window.segments →
    new.storage.count number = old.storage.count number
  leaders_eq :
    ((OrderIndex.entries new.index).filter fun leader =>
        leader.2 ∉ window.segments) =
      (OrderIndex.entries old.index).filter fun leader =>
        leader.2 ∉ window.segments

theorem confined_of_segments
    (hold : old.storage.Tallied) (hnew : new.storage.Tallied)
    (holdIndex : OrderIndex.entries old.index = firstKeys 0 old.storage.parts)
    (hnewIndex : OrderIndex.entries new.index = firstKeys 0 new.storage.parts)
    (hcount : new.storage.segmentCount = old.storage.segmentCount)
    (hsegments : ∀ number, number ∉ window.segments →
      new.storage.segments[number]? = old.storage.segments[number]?) :
    Confined window old new := by
  refine ⟨hsegments, fun number hnumber => ?_, ?_⟩
  · cases hsegment : old.storage.segments[number]? with
    | some segment =>
        rw [hold.count_eq hsegment,
          hnew.count_eq ((hsegments number hnumber).trans hsegment)]
    | none =>
        have hbeyond : ¬number < old.storage.segmentCount :=
          Nat.not_lt.mpr (Array.getElem?_eq_none_iff.mp hsegment)
        rw [Storage.count, Storage.count, Storage.outOfRange,
          Storage.outOfRange, hcount, if_neg hbeyond, if_neg hbeyond]
  · rw [holdIndex, hnewIndex]
    refine filter_firstKeys_congr (fun number => number ∉ window.segments)
      ?_ fun number hnumber => ?_
    · rw [Storage.length_parts, Storage.length_parts, hcount]
    · rw [Nat.zero_add, decide_eq_true_eq] at hnumber
      rw [Storage.getElem?_parts, Storage.getElem?_parts,
        hsegments number hnumber]

/--
The same entries in their old order, `count` of them in a window and there in
equal shares, and the least keys of the segments in the index.
-/
structure SharesOut (window : Window) (count : Nat)
    (old new : PackedArray ρ ι) : Prop where
  entries_eq : new.storage.entries = old.storage.entries
  uniform : new.storage.Uniform
  share_eq : ∀ offset < window.length, ∃ segment,
    new.storage.segments[window.start + offset]? = some segment ∧
      segment.countP Option.isSome =
        count / window.length + if offset < count % window.length then 1 else 0
  index_eq : OrderIndex.entries new.index =
    new.storage.segments.toList.zipIdx.filterMap fun (segment, number) =>
      segment.minimum?.map fun key => (key, number)

theorem sharesOut_of_dealOut {base : Storage} {entries : List Entry}
    (hbase : base.Exact) (hlength : 0 < window.length)
    (hwindow : window.start + window.length ≤ base.segmentCount)
    (hfit : entries.length ≤ window.length * base.segmentCapacity)
    (hsegments : new.storage.segments = (base.dealOut window entries).segments)
    (hcapacity : new.storage.segmentCapacity = base.segmentCapacity)
    (hentries : new.storage.entries = old.storage.entries)
    (hindex : OrderIndex.entries new.index = firstKeys 0 new.storage.parts) :
    SharesOut window entries.length old new := by
  have hexact := hbase.exact_dealOut hlength hfit
  refine ⟨hentries, ?_, fun offset hoffset => ?_, ?_⟩
  · rw [Storage.Uniform, hsegments, hcapacity]
    exact hexact.length_segment
  · have hnumber : window.start + offset <
        (base.dealOut window entries).segmentCount := by
      rw [Storage.segmentCount, Storage.dealOut, Storage.withSegments,
        size_overwrite]
      exact Nat.lt_of_lt_of_le (Nat.add_lt_add_left hoffset _) hwindow
    obtain ⟨segment, hsegment⟩ := Storage.exists_segment hnumber
    refine ⟨segment, hsegments ▸ hsegment, ?_⟩
    rw [Segment.countP_isSome, ← Storage.filled_eq hsegment]
    exact Storage.filled_dealOut hlength hwindow entries hoffset
  · rw [hindex, Storage.firstKeys_parts]

/-! ## Accepted arrays -/

variable [LawfulIndex ι]

structure Accepted (array : PackedArray ρ ι) : Prop where
  wellFormed : array.storage.WellFormed
  valid : LawfulIndex.Valid array.index
  validate_eq : array.validate = .ok ()

theorem Consistent.accepted (h : Consistent array) : array.Accepted :=
  ⟨h.exact.wellFormed, h.valid, h.validate_eq⟩

def recounted (array : PackedArray ρ ι) : PackedArray ρ ι :=
  { array with storage := array.storage.recounted }

theorem Accepted.tallied (h : array.Accepted) : array.storage.Tallied :=
  ((validate_eq_ok_iff h.wellFormed.uniform).mp h.validate_eq).1

theorem Accepted.consistent_recounted (h : array.Accepted) :
    Consistent array.recounted := by
  obtain ⟨-, -, hascending, hindex⟩ :=
    (validate_eq_ok_iff h.wellFormed.uniform).mp h.validate_eq
  exact ⟨h.wellFormed.exact_recounted, hascending, h.valid, hindex⟩

theorem Accepted.run_spread (h : array.Accepted) (hlength : 0 < window.length)
    (hwindow : window.start + window.length ≤ array.storage.segmentCount) :
    Update.run (spread window) array =
      (.ok (), { array.spreadOut window with
        storage := array.storage.refilled window
          (array.storage.partsOf window).flatten }) := by
  have hfit : (array.storage.partsOf window).flatten.length ≤
      window.length * array.storage.segmentCapacity :=
    h.wellFormed.exact_recounted.occupied_le window
  exact Update.run_of_eq (spread_of_steps (h.tallied.leaders_range' hwindow)
    (Storage.drain_eq_drained hlength hwindow)
    (h.wellFormed.fill_drained hlength hwindow hfit))

structure Spreads (window : Window) (old new : PackedArray ρ ι) : Prop where
  capacity_eq : new.capacity = old.capacity
  sharesOut : SharesOut window (old.storage.occupiedSlots window) old new
  confined : Confined window old new

theorem Accepted.spreads (h : array.Accepted) (hlength : 0 < window.length)
    (hwindow : window.start + window.length ≤ array.storage.segmentCount)
    (hnew : new = { array.spreadOut window with
      storage := array.storage.refilled window
        (array.storage.partsOf window).flatten }) :
    Spreads window array new := by
  have hold := h.consistent_recounted
  have hspread := rearranges_spreadOut hold hlength hwindow
  have hsegments : new.storage.segments =
      (array.spreadOut window).storage.segments := by
    rw [hnew]
    exact array.storage.segments_refilled window _
  have hcount : new.storage.segmentCount = array.storage.segmentCount := by
    rw [Storage.segmentCount, hsegments]
    exact array.segmentCount_spreadOut window
  have hparts : new.storage.parts = (array.spreadOut window).storage.parts := by
    rw [Storage.parts, hsegments, Storage.parts]
  have hindex : OrderIndex.entries new.index =
      firstKeys 0 new.storage.parts := by
    rw [hparts, hnew]
    exact hspread.consistent.index_eq
  refine ⟨?_, ?_, ?_⟩
  · rw [capacity, Storage.capacity, hcount, hnew]
    rfl
  · rw [Storage.occupiedSlots_eq]
    refine sharesOut_of_dealOut hold.exact hlength hwindow
      (hold.exact.occupied_le window) hsegments (by rw [hnew]; rfl) ?_ hindex
    rw [Storage.entries_eq_flatten, hparts, ← Storage.entries_eq_flatten]
    exact hspread.entries_eq
  · refine confined_of_segments h.tallied ?_ hold.index_eq hindex hcount ?_
    · rw [hnew]
      exact h.tallied.refilled h.wellFormed.size_leaves hlength _
    · intro number hnumber
      rw [hsegments]
      exact array.getElem?_spreadOut hnumber

/-! ## Growing -/

structure Resizes (old : PackedArray ρ ι) (result : Except Fault Unit)
    (new : PackedArray ρ ι) : Prop where
  ok_iff : result = .ok () ↔ old.CanGrow
  capacity_eq : result = .ok () → new.capacity = 2 * old.capacity
  sharesOut : result = .ok () →
    SharesOut new.storage.whole (old.storage.occupiedSlots old.storage.whole)
      old new
  refused : ∀ fault, result = .error fault → new = old

theorem Accepted.usable_double (h : array.Accepted) :
    isUsableCapacity (2 * array.capacity) = true :=
  isUsableCapacity_double h.wellFormed.usable

theorem Accepted.length_entries_le_blank (h : array.Accepted) :
    array.storage.entries.length ≤
      (Storage.blank (2 * array.capacity)).capacity := by
  -- Neither side looks at a counter.
  have hfit :=
    PackedArray.length_entries_le_blank h.consistent_recounted.exact
  exact hfit

theorem Accepted.sharesOut_grownUp (h : array.Accepted) :
    SharesOut array.grownUp.storage.whole
      (array.storage.occupiedSlots array.storage.whole) array
      array.grownUp := by
  have hgrown := rearranges_grownUp h.consistent_recounted
  have hblank := Storage.exact_blank h.usable_double
  have hwhole : array.grownUp.storage.whole =
      (Storage.blank (2 * array.capacity)).whole :=
    congrArg (Window.mk 0) (size_overwrite _ _ _)
  rw [hwhole, Storage.occupiedSlots_eq, Storage.occupied_whole]
  exact sharesOut_of_dealOut hblank hblank.length_whole_pos (Nat.zero_add _).le
    h.length_entries_le_blank rfl rfl hgrown.entries_eq
    hgrown.consistent.index_eq

theorem Accepted.resizes (h : array.Accepted) :
    Resizes array (grow array).result (grow array).state := by
  by_cases hgrow : array.CanGrow
  · obtain ⟨events, heq⟩ := grow_of_canGrow h.usable_double
      h.length_entries_le_blank hgrow
    have hcapacity := capacity_grownUp h.consistent_recounted.exact
    rw [heq]
    exact ⟨iff_of_true rfl hgrow, fun _ => hcapacity,
      fun _ => h.sharesOut_grownUp, fun _ hfault => by contradiction⟩
  · rw [grow_of_not_canGrow h.usable_double hgrow]
    exact ⟨iff_of_false (by simp) hgrow, by simp, by simp, fun _ _ => rfl⟩

/--
Whatever a check accepts can be spread over any window, and grows unless there is
no storage for it.  Either way the entries keep their order and the index has the
least keys; what is refused leaves no trace.
-/
theorem spreads_and_resizes (h : array.Accepted) :
    (∀ window : Window, 0 < window.length →
      window.start + window.length ≤ array.storage.segmentCount →
        ∃ new, Update.run (spread window) array = (.ok (), new) ∧
          Spreads window array new) ∧
      Resizes array (grow array).result (grow array).state :=
  ⟨fun _ hlength hwindow => ⟨_, h.run_spread hlength hwindow,
    h.spreads hlength hwindow rfl⟩, h.resizes⟩

theorem wellFormed_handmade (ι : Type) [OrderIndex ι] :
    (handmade ι).storage.WellFormed := by
  change (handmade SortedIndex).storage.WellFormed
  exact {
    usable := by decide +kernel
    segmentCapacity_eq := by decide +kernel
    uniform := by decide +kernel
    size_leaves := rfl
    tapered := ⟨rfl, by decide +kernel⟩ }

/-- The counters of the halves are wrong, and the window lies across them. -/
theorem handmade_spreads_and_resizes :
    ((∃ new, Update.run (spread ⟨1, 2⟩) (handmade SortedIndex) =
          (.ok (), new) ∧ Spreads ⟨1, 2⟩ (handmade SortedIndex) new) ∧
        Resizes (handmade SortedIndex) (grow (handmade SortedIndex)).result
          (grow (handmade SortedIndex)).state) ∧
      (∃ new, Update.run (spread ⟨1, 2⟩) (handmade TreeIndex) =
          (.ok (), new) ∧ Spreads ⟨1, 2⟩ (handmade TreeIndex) new) ∧
        Resizes (handmade TreeIndex) (grow (handmade TreeIndex)).result
          (grow (handmade TreeIndex)).state := by
  have hsorted : (handmade SortedIndex).Accepted :=
    ⟨wellFormed_handmade _, built_handmade.valid, by decide +kernel⟩
  have htree : (handmade TreeIndex).Accepted :=
    ⟨wellFormed_handmade _, built_handmade.valid, by decide +kernel⟩
  have hwindow : 1 + 2 ≤ (handmade SortedIndex).storage.segmentCount ∧
      1 + 2 ≤ (handmade TreeIndex).storage.segmentCount := by
    decide +kernel
  exact ⟨⟨(spreads_and_resizes hsorted).1 ⟨1, 2⟩ Nat.two_pos hwindow.1,
      (spreads_and_resizes hsorted).2⟩,
    (spreads_and_resizes htree).1 ⟨1, 2⟩ Nat.two_pos hwindow.2,
    (spreads_and_resizes htree).2⟩

end PackedArray

end PackedMemory
