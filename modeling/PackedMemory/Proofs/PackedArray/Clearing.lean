import PackedMemory.Proofs.PackedArray.Mending

/-!
# Making room

With exact densities a full segment never stands in an overfull window, whatever
the bounds are, also in an array that has been refused to grow: fewer entries
never overfill a window, and an insertion that is withdrawn leaves every segment
as full as it was.  So the pair of segments around a full one can always be
spread, and room for a key is made without growing.
-/

namespace PackedMemory

namespace PackedArray

variable {ι : Type} [OrderIndex ι] [LawfulIndex ι]
  {array new : PackedArray Rat ι} {key : Key} {segment : Nat}

omit [OrderIndex ι] [LawfulIndex ι] in
theorem Tended.of_filled_le (h : array.Tended) (hexact : array.storage.Exact)
    (hshape : SameShape array new)
    (hle : ∀ number, new.storage.filled number ≤ array.storage.filled number) :
    new.Tended := by
  intro other hother level hlow hhigh
  have hfull : array.storage.filled other = array.storage.segmentCapacity := by
    refine Nat.le_antisymm (hexact.filled_le other) ?_
    rw [← hshape.segmentCapacity_eq, ← hother]
    exact hle other
  rw [hshape.height_eq] at hhigh
  exact (h other hfull level hlow hhigh).of_le hshape
    (Storage.occupied_le_occupied hle _)

theorem keptUp_tended : KeptUp (ρ := Rat) (ι := ι) Tended TendedBeside where
  beside segment h := h.tendedBeside segment
  placed hplaces harray h := hplaces.tendedBeside harray h
  restored hrebalancing harray hsegment h :=
    hrebalancing.tended harray hsegment h
  relieved harray hshape hle h := h.of_filled_le harray.exact hshape hle

theorem Reachable.tended {config : Config Rat} (h : Reachable config array) :
    array.Tended :=
  keptUp_tended.reachable (fun _ => tended_of_ofConfig) h

structure ClearsPair (key : Key) (old new : PackedArray Rat ι) : Prop where
  withinBounds : ∀ level, 2 ≤ level → level ≤ old.storage.height →
    old.WithinBounds level (Window.around (old.predecessor key) level)
  rebalance_eq : Update.run (rebalance (old.predecessor key) true) old =
    (.ok (), new)
  findRoom_eq : Update.run (findRoom (old.predecessor key) key) old =
    (.ok (new.predecessor key), new)
  rearranges : Rearranges old new
  capacity_eq : new.capacity = old.capacity
  redistributes : Redistributes (Window.around (old.predecessor key) 2) old new
  div_two_eq : new.predecessor key / 2 = old.predecessor key / 2
  isFull_eq : new.storage.isFull (new.predecessor key) = false

omit [LawfulIndex ι] in
theorem FitsAround.run_rebalance_eq (h : array.FitsAround segment)
    (hexact : array.storage.Exact)
    (hsegment : segment < array.storage.segmentCount)
    (hfull : array.storage.isFull segment = true) :
    Update.run (rebalance segment true) array =
      (.ok (), array.spreadOut (Window.around segment 2)) := by
  have hwindow := hexact.around_le hsegment hexact.two_le_height
  rw [run_rebalance hexact (h.isCrammed_eq_false hexact hsegment) hsegment,
    h.repair_eq_spread hexact hfull]
  exact Update.run_of_eq (spread_eq hexact (Window.lengthAt_pos 2) hwindow)

theorem FitsAround.clearsPair (h : array.FitsAround (array.predecessor key))
    (harray : Consistent array)
    (hfull : array.storage.isFull (array.predecessor key) = true) :
    ClearsPair key array
      (array.spreadOut (Window.around (array.predecessor key) 2)) := by
  have hexact := harray.exact
  have hsegment := harray.predecessor_lt key
  have hheight := hexact.two_le_height
  have hwindow := hexact.around_le hsegment hheight
  have hlength := Window.lengthAt_pos 2
  have hsettles := h.settles_pair hexact
  have hcrammed := h.isCrammed_eq_false hexact hsegment
  have hrun := h.run_rebalance_eq hexact hsegment hfull
  have hfree := (Rebalancing.spread hcrammed (Nat.le_refl 2) hheight
    hsettles).isFull_eq_false harray hfull
  obtain ⟨hlow, hhigh⟩ := predecessor_spreadOut harray hlength hwindow
    (around_start_le _ 2) (lt_around_end _ 2)
  refine ⟨fun level hlow hhigh => h.withinBounds hexact hsegment hlow hhigh,
    hrun, ?_, rearranges_spreadOut harray hlength hwindow,
    array.capacity_spreadOut _,
    redistributes_spreadOut harray hsegment (Nat.le_refl 2) hheight hsettles,
    Window.div_lengthAt_of_mem hlow hhigh, hfree⟩
  simp only [findRoom, Update.run_bind, Update.run_view, hfull, if_true, hrun,
    hfree]
  rfl

/-- An array never grows to make room for a key. -/
theorem exists_clearsPair {config : Config Rat} (h : Reachable config array)
    (hfull : array.storage.isFull (array.predecessor key) = true) :
    ∃ new, ClearsPair key array new := by
  have hconsistent := h.consistent
  have hfilled := (hconsistent.exact.isFull_iff
    (hconsistent.predecessor_lt key)).mp hfull
  exact ⟨_, (h.tended _ hfilled).clearsPair hconsistent hfull⟩

def fourEntries (ι : Type) [OrderIndex ι] : PackedArray Rat ι :=
  (extend [⟨1, 10⟩, ⟨2, 20⟩, ⟨3, 30⟩, ⟨4, 40⟩]
    (blank eightSlots.policy 8)).state

theorem reachable_fourEntries {ι : Type} [OrderIndex ι] :
    Reachable eightSlots (fourEntries ι) :=
  .extended (.created (ofConfig_eq (by decide +kernel) (by decide +kernel))) _

theorem clearsPair_fourEntries :
    (fourEntries SortedIndex).storage.isFull
        ((fourEntries SortedIndex).predecessor 5) = true ∧
      (∃ new, ClearsPair 5 (fourEntries SortedIndex) new) ∧
      (fourEntries TreeIndex).storage.isFull
        ((fourEntries TreeIndex).predecessor 5) = true ∧
      ∃ new, ClearsPair 5 (fourEntries TreeIndex) new :=
  have hsorted : (fourEntries SortedIndex).storage.isFull
      ((fourEntries SortedIndex).predecessor 5) = true := by decide +kernel
  have htree : (fourEntries TreeIndex).storage.isFull
      ((fourEntries TreeIndex).predecessor 5) = true := by decide +kernel
  ⟨hsorted, exists_clearsPair reachable_fourEntries hsorted, htree,
    exists_clearsPair reachable_fourEntries htree⟩

end PackedArray

end PackedMemory
