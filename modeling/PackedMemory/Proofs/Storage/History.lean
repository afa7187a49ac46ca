import PackedMemory.Proofs.Storage.Occupancy

/-!
# Histories of storages

Whatever steps a storage goes through, with whatever arguments and in whatever
order, its counters stay those of its slots.  Nothing is asked of the keys: the
counters depend on which slots are occupied, not on what occupies them.
-/

namespace PackedMemory

namespace Storage

inductive Step where
  | insert (number : Nat) (entry : Entry)
  | removeAt (number offset : Nat)
  | drain (window : Window)
  | fill (window : Window) (entries : List Entry)
  | clear
deriving DecidableEq, Repr

def perform (storage : Storage) : Step → Except Fault Unit × Storage
  | .insert number entry =>
      let (result, after) := storage.insert number entry
      (result.map fun _ => (), after)
  | .removeAt number offset =>
      let (result, after) := storage.removeAt number offset
      (result.map fun _ => (), after)
  | .drain window =>
      let (result, after) := storage.drain window
      (result.map fun _ => (), after)
  | .fill window entries =>
      let (result, after) := storage.fill window entries
      (result.map fun _ => (), after)
  | .clear => (.ok (), storage.clear)

def performAll (storage : Storage) (steps : List Step) : Storage :=
  steps.foldl (fun storage step => (storage.perform step).2) storage

variable {storage : Storage} {window : Window} {number : Nat}

inductive Outcome (storage : Storage) : Except Fault Unit × Storage → Prop
  | unchanged (result : Except Fault Unit) : Outcome storage (result, storage)
  | changed {after : Storage} (h : after.Exact) :
      Outcome storage (.ok (), after)

theorem Exact.outcome_insert (h : storage.Exact) (number : Nat)
    (entry : Entry) :
    Outcome storage (storage.perform (.insert number entry)) := by
  cases hsegment : storage.segments[number]? with
  | none =>
      rw [perform, insert, hsegment]
      exact .unchanged _
  | some segment =>
      have hle := Segment.length_entries_le segment
      rw [h.length_segment segment (Array.mem_of_getElem? hsegment)] at hle
      rcases Nat.lt_or_eq_of_le hle with hgap | hfull
      · rw [perform, h.insert_eq hsegment hgap]
        exact .changed (h.exact_insert hsegment hgap entry)
      · have hisFull : storage.isFull number = true := by
          rw [h.isFull_eq hsegment, beq_iff_eq, hfull]
        rw [perform, insert, hsegment]
        simp only [hisFull, if_true]
        exact .unchanged _

theorem Exact.outcome_removeAt (h : storage.Exact) (number offset : Nat) :
    Outcome storage (storage.perform (.removeAt number offset)) := by
  cases hsegment : storage.segments[number]? with
  | none =>
      rw [perform, removeAt, hsegment]
      exact .unchanged _
  | some segment =>
      cases hslot : segment[offset]?.join with
      | some entry =>
          rw [perform, h.removeAt_eq hsegment
            (Option.join_eq_some_iff.mp hslot)]
          exact .changed (h.exact_removeAt hsegment offset)
      | none =>
          have hgap : segment.getD offset none = none := by
            rw [List.getD_eq_getElem?_getD]
            cases hget : segment[offset]? with
            | none => rfl
            | some slot =>
                rw [hget] at hslot
                exact hslot
          rw [perform, removeAt, hsegment]
          simp only [hgap]
          split <;> exact .unchanged _

theorem checkWindow_eq_error
    (h : ¬(0 < window.length ∧
      window.start + window.length ≤ storage.segmentCount)) :
    storage.checkWindow window =
      .error (storage.outOfRange (windowEnd window)) := by
  rw [checkWindow, if_neg h]

theorem Exact.outcome_drain (h : storage.Exact) (window : Window) :
    Outcome storage (storage.perform (.drain window)) := by
  by_cases hwindow : 0 < window.length ∧
      window.start + window.length ≤ storage.segmentCount
  · rw [perform, h.drain_eq hwindow.1 hwindow.2]
    exact .changed (h.exact_overwrite window.start
      (storage.length_of_mem_blanks window))
  · rw [perform, drain, checkWindow_eq_error hwindow]
    exact .unchanged _

theorem Exact.outcome_fill (h : storage.Exact) (window : Window)
    (entries : List Entry) :
    Outcome storage (storage.perform (.fill window entries)) := by
  by_cases hwindow : 0 < window.length ∧
      window.start + window.length ≤ storage.segmentCount
  · by_cases hfit : entries.length ≤ window.length * storage.segmentCapacity
    · have helements := h.elements_eq hwindow.2
      rw [elements, if_pos hwindow.2, Except.ok.injEq] at helements
      by_cases hempty : storage.occupied window = 0
      · rw [perform, h.fill_eq hwindow.1 hwindow.2 hempty hfit]
        exact .changed (h.exact_dealOut hwindow.1 hfit)
      · rw [perform, fill, checkWindow_eq hwindow.1 hwindow.2]
        simp only [if_neg (Nat.not_lt.mpr hfit), helements, ne_eq, hempty,
          not_false_eq_true, if_true]
        exact .unchanged _
    · rw [perform, fill, checkWindow_eq hwindow.1 hwindow.2]
      simp only [if_pos (Nat.not_le.mp hfit)]
      exact .unchanged _
  · rw [perform, fill, checkWindow_eq_error hwindow]
    exact .unchanged _

theorem Exact.clear_eq (h : storage.Exact) :
    storage.clear = storage.withSegments
      (storage.segments.map fun segment => Segment.blank segment.length) := by
  have hheld : held (storage.segments.map fun segment =>
      Segment.blank segment.length) =
        (held storage.segments).map fun _ => 0 := by
    simp [held]
  rw [clear, Storage.withSegments, h.counts_eq, CountTree.clear_ofCounts,
    hheld]

theorem Exact.exact_clear (h : storage.Exact) : storage.clear.Exact := by
  rw [h.clear_eq]
  refine h.withSegments (Array.size_map ..) fun segment hsegment => ?_
  obtain ⟨old, hold, rfl⟩ := Array.mem_map.mp hsegment
  rw [Segment.length_blank, h.length_segment old hold]

theorem Exact.outcome (h : storage.Exact) (step : Step) :
    Outcome storage (storage.perform step) := by
  cases step with
  | insert number entry => exact h.outcome_insert number entry
  | removeAt number offset => exact h.outcome_removeAt number offset
  | drain window => exact h.outcome_drain window
  | fill window entries => exact h.outcome_fill window entries
  | clear => exact .changed h.exact_clear

theorem Exact.perform (h : storage.Exact) (step : Step) :
    (storage.perform step).2.Exact := by
  generalize houtcome : storage.perform step = outcome
  have hcases := h.outcome step
  rw [houtcome] at hcases
  cases hcases with
  | unchanged => exact h
  | changed hafter => exact hafter

theorem Exact.performAll (h : storage.Exact) (steps : List Step) :
    (storage.performAll steps).Exact := by
  induction steps generalizing storage with
  | nil => exact h
  | cons step steps ih => exact ih (h.perform step)

theorem Exact.eq_of_error (h : storage.Exact) {step : Step} {fault : Fault}
    (herror : (storage.perform step).1 = .error fault) :
    (storage.perform step).2 = storage := by
  generalize houtcome : storage.perform step = outcome at herror ⊢
  have hcases := h.outcome step
  rw [houtcome] at hcases
  cases hcases with
  | unchanged => rfl
  | changed => contradiction

/-! ## Counters -/

def occupiedSlots (storage : Storage) (window : Window) : Nat :=
  (storage.segmentsOf window).flatten.countP Option.isSome

theorem occupiedSlots_eq (storage : Storage) (window : Window) :
    storage.occupiedSlots window = storage.occupied window := by
  have hentries : (storage.segmentsOf window).flatMap Segment.entries =
      (storage.segmentsOf window).flatten.filterMap id := by
    rw [List.flatMap_def, List.filterMap_flatten]
    rfl
  rw [occupied, ← flatMap_segmentsOf, hentries, List.length_filterMap_eq_countP]
  rfl

structure Counted (storage : Storage) : Prop where
  segmentCount_eq : storage.segmentCount = 2 ^ (storage.height - 1)
  row_eq : ∀ level < storage.height, ∀ position,
    (storage.counts.row level)[position]? =
      if (position + 1) * 2 ^ level ≤ storage.segmentCount then
        some (storage.occupiedSlots ⟨position * 2 ^ level, 2 ^ level⟩)
      else
        none
  leaves_sum : ∀ start length, start + length ≤ storage.segmentCount →
    (storage.counts.leaves.extract start (start + length)).foldl (· + ·) 0 =
      storage.occupiedSlots ⟨start, length⟩
  elements_eq : ∀ window : Window,
    window.start + window.length ≤ storage.segmentCount →
      storage.elements window = .ok (storage.occupiedSlots window)

theorem Exact.counted (h : storage.Exact) : storage.Counted := by
  obtain ⟨depth, hsize, hcount, hheight⟩ := h.size_held
  refine ⟨?_, fun level hlevel position => ?_, fun start length hwindow => ?_,
    fun window hwindow => ?_⟩
  · rw [hcount, hheight, Nat.add_sub_cancel]
  · rw [h.counts_eq, CountTree.getElem?_row_ofCounts hsize (by omega), hsize,
      ← hcount, occupiedSlots_eq, ← sum_held]
  · rw [h.counts_eq, CountTree.leaves_ofCounts, occupiedSlots_eq, ← sum_held,
      ← Array.foldl_toList, Array.toList_extract, List.extract_eq_take_drop,
      Nat.add_sub_cancel_left, List.sum_eq_foldl]
  · rw [h.elements_eq hwindow, occupiedSlots_eq]

theorem exists_of_removeAt {offset : Nat} {entry : Entry}
    (h : (storage.removeAt number offset).1 = .ok (some entry)) :
    ∃ segment, storage.segments[number]? = some segment ∧
      entry ∈ segment.entries := by
  cases hsegment : storage.segments[number]? with
  | none => simp [removeAt, hsegment] at h
  | some segment =>
      refine ⟨segment, rfl, ?_⟩
      simp only [removeAt, hsegment] at h
      split at h
      · contradiction
      · split at h
        · simp at h
        · rename_i hslot
          cases h
          exact Segment.mem_entries_of_getD hslot

theorem Exact.counter_pos (h : storage.Exact) {segment : Segment}
    {entry : Entry} (hsegment : storage.segments[number]? = some segment)
    (hentry : entry ∈ segment.entries) {level : Nat}
    (hlevel : level + 1 ≤ storage.height) :
    ∃ count, (storage.counts.row level)[number / 2 ^ level]? = some count ∧
      0 < count := by
  have hwindow : Window.around number (level + 1) =
      ⟨number / 2 ^ level * 2 ^ level, 2 ^ level⟩ :=
    congrArg (Window.mk · (2 ^ level)) (Window.around_start number (level + 1))
  have hend := h.around_le (lt_segmentCount hsegment) hlevel
  have hfilled := storage.filled_le_occupied
    (around_start_le number (level + 1)) (lt_around_end number (level + 1))
  rw [hwindow] at hend hfilled
  refine ⟨storage.occupiedSlots ⟨number / 2 ^ level * 2 ^ level, 2 ^ level⟩,
    ?_, ?_⟩
  · rw [h.counted.row_eq level hlevel, if_pos]
    rw [Nat.succ_mul]
    exact hend
  · rw [occupiedSlots_eq]
    refine Nat.lt_of_lt_of_le ?_ hfilled
    rw [filled_eq hsegment]
    exact List.length_pos_of_mem hentry

/-! ## Histories -/

def Evolved (storage : Storage) : Prop :=
  ∃ exponent steps, 2 ≤ exponent ∧
    storage = (blank (2 ^ exponent)).performAll steps

theorem Evolved.exact (h : storage.Evolved) : storage.Exact := by
  obtain ⟨exponent, steps, hleast, rfl⟩ := h
  exact (exact_blank ((isUsableCapacity_iff _).mpr
    ⟨exponent, hleast, rfl⟩)).performAll steps

/--
After any steps the counters are those of the slots, so a removal finds no
counter at zero; and a step that fails changes nothing.
-/
theorem counters_follow_slots (h : storage.Evolved) :
    storage.Counted ∧
      (∀ step fault, (storage.perform step).1 = .error fault →
        (storage.perform step).2 = storage) ∧
      ∀ number offset entry,
        (storage.removeAt number offset).1 = .ok (some entry) →
        ∀ level < storage.height, ∃ count,
          (storage.counts.row level)[number / 2 ^ level]? = some count ∧
            0 < count := by
  have hexact := h.exact
  refine ⟨hexact.counted, fun step fault herror => hexact.eq_of_error herror, ?_⟩
  intro number offset entry hremoved level hlevel
  obtain ⟨segment, hsegment, hentry⟩ := exists_of_removeAt hremoved
  exact hexact.counter_pos hsegment hentry hlevel

def mixedSteps : List Step :=
  [.fill ⟨0, 3⟩ [⟨9, 90⟩, ⟨7, 70⟩], .clear, .insert 1 ⟨5, 50⟩,
    .insert 1 ⟨3, 30⟩, .fill ⟨2, 2⟩ [⟨9, 90⟩, ⟨1, 10⟩, ⟨4, 40⟩],
    .removeAt 1 3, .drain ⟨2, 1⟩]

def mixed : Storage := (blank 16).performAll mixedSteps

theorem counters_of_mixed :
    mixed.Counted ∧
      (mixed.perform (.insert 4 ⟨0, 0⟩)).2 = mixed ∧
      ∃ count, (mixed.counts.row 2)[0]? = some count ∧ 0 < count := by
  have hmixed : mixed.Evolved := ⟨4, mixedSteps, by decide, rfl⟩
  obtain ⟨hcounted, hfails, hremoves⟩ := counters_follow_slots hmixed
  exact ⟨hcounted, hfails _ (.outOfRange 4 4) (by decide +kernel),
    hremoves 3 0 ⟨4, 40⟩ (by decide +kernel) 2 (by decide +kernel)⟩

end Storage

end PackedMemory
