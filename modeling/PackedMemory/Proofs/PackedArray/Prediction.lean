import PackedMemory.Proofs.PackedArray.Mending

/-!
# What the gauge predicts

The gauge looks at one window of each level only, the first, and at numbers
only.  Yet it tells exactly whether a window that is filled with so many entries
has an overfull window inside it, itself included: the first windows get the
largest shares.
-/

namespace PackedMemory

namespace Storage

theorem Exact.elements_eq_ok_iff {storage : Storage} (h : storage.Exact)
    {window : Window} {count : Nat} :
    storage.elements window = .ok count ↔
      window.start + window.length ≤ storage.segmentCount ∧
        storage.occupied window = count := by
  by_cases hwindow : window.start + window.length ≤ storage.segmentCount
  · rw [h.elements_eq hwindow, Except.ok.injEq]
    exact (and_iff_right hwindow).symm
  · rw [elements, if_neg hwindow]
    exact iff_of_false (by simp) fun hcount => hwindow hcount.1

end Storage

namespace PackedArray

variable {ρ ι : Type} {level start : Nat} {entries : List Entry}

def AllWithinBounds [Quantity ρ] (array : PackedArray ρ ι) (level : Nat)
    (window : Window) : Prop :=
  ∀ sub first, 1 ≤ sub → sub ≤ level → Window.lengthAt sub ∣ first →
    Window.Inside ⟨first, Window.lengthAt sub⟩ window →
      array.WithinBounds sub ⟨first, Window.lengthAt sub⟩

theorem sameShape_of_dealOut {array new : PackedArray ρ ι} {window : Window}
    (h : array.storage.Exact) (hnew : new.storage.Exact)
    (hpolicy : new.policy = array.policy)
    (hstorage : new.storage = array.storage.dealOut window entries) :
    SameShape array new := by
  have hcount : new.storage.segmentCount = array.storage.segmentCount := by
    rw [hstorage]
    exact size_overwrite _ _ _
  refine ⟨hpolicy, ?_, hcount, h.height_congr hnew hcount⟩
  rw [hstorage]
  rfl

variable {array new : PackedArray Rat ι}

theorem isSpreadable_iff_dealOut (h : array.storage.Exact)
    (haligned : Window.lengthAt level ∣ start)
    (hwindow : start + Window.lengthAt level ≤ array.storage.segmentCount)
    (hfit : entries.length ≤
      Window.lengthAt level * array.storage.segmentCapacity)
    (hpolicy : new.policy = array.policy)
    (hstorage : new.storage =
      array.storage.dealOut ⟨start, Window.lengthAt level⟩ entries) :
    array.gauge.isSpreadable level entries.length = true ↔
      new.AllWithinBounds level ⟨start, Window.lengthAt level⟩ := by
  have hlength := Window.lengthAt_pos level
  have hnew : new.storage.Exact := hstorage ▸ h.exact_dealOut hlength hfit
  have hshape := sameShape_of_dealOut h hnew hpolicy hstorage
  rw [Gauge.isSpreadable_iff, ← hshape.gauge_eq]
  constructor
  · intro hspreadable sub first hlow hhigh _ hinside
    have hshare := Storage.occupied_dealOut_le hlength hwindow entries
      hinside.1 hinside.2
    rw [← hstorage] at hshare
    refine ⟨_, hnew.elements_eq ?_,
      Gauge.isOverfull_mono hshare (hspreadable sub hlow hhigh)⟩
    rw [hshape.segmentCount_eq]
    exact hinside.2.trans hwindow
  · intro hbounds sub hlow hhigh
    have hdvd := Window.lengthAt_dvd hhigh
    have hsub := Nat.le_of_dvd hlength hdvd
    obtain ⟨elements, helements, hoverfull⟩ := hbounds sub start hlow hhigh
      (hdvd.trans haligned) ⟨Nat.le_refl _, Nat.add_le_add_left hsub start⟩
    -- The first window of a level gets exactly what the gauge has tried.
    have hshare := (hnew.elements_eq_ok_iff.mp helements).2
    rw [hstorage,
      Storage.occupied_dealOut_first hlength hwindow entries hsub] at hshare
    rwa [← hshare] at hoverfull

/--
So many elements are spreadable if and only if filling an empty window with them
leaves every aligned window inside it within its bounds.
-/
theorem isSpreadable_iff_fill (h : array.storage.Exact) {window : Window}
    (hlength : window.length = Window.lengthAt level)
    (haligned : Window.lengthAt level ∣ window.start)
    (hempty : array.storage.elements window = .ok 0)
    (hfit : entries.length ≤
      window.length * array.storage.segmentCapacity) :
    ∃ leaders filled,
      array.storage.fill window entries = (.ok leaders, filled) ∧
      (array.gauge.isSpreadable level entries.length = true ↔
        AllWithinBounds { array with storage := filled } level window) := by
  obtain ⟨start, length⟩ := window
  obtain rfl : length = Window.lengthAt level := hlength
  obtain ⟨hwindow, hoccupied⟩ := h.elements_eq_ok_iff.mp hempty
  exact ⟨_, _, h.fill_eq (Window.lengthAt_pos level) hwindow hoccupied hfit,
    isSpreadable_iff_dealOut h haligned hwindow hfit rfl rfl⟩

theorem prediction_of_lopsided :
    (∃ leaders filled,
      (lopsided SortedIndex).storage.fill ⟨2, 2⟩
        [⟨9, 90⟩, ⟨10, 100⟩, ⟨11, 110⟩] = (.ok leaders, filled) ∧
      ((lopsided SortedIndex).gauge.isSpreadable 2 3 = true ↔
        AllWithinBounds { lopsided SortedIndex with storage := filled } 2
          ⟨2, 2⟩)) ∧
      ∃ leaders filled,
        (lopsided TreeIndex).storage.fill ⟨2, 2⟩
          [⟨9, 90⟩, ⟨10, 100⟩, ⟨11, 110⟩] = (.ok leaders, filled) ∧
        ((lopsided TreeIndex).gauge.isSpreadable 2 3 = true ↔
          AllWithinBounds { lopsided TreeIndex with storage := filled } 2
            ⟨2, 2⟩) :=
  ⟨isSpreadable_iff_fill (consistent_lopsided (by decide +kernel)).exact
      (by decide) (by decide) (by decide +kernel) (by decide +kernel),
    isSpreadable_iff_fill (consistent_lopsided (by decide +kernel)).exact
      (by decide) (by decide) (by decide +kernel) (by decide +kernel)⟩

end PackedArray

end PackedMemory
