import PackedMemory.Proofs.Gauge
import PackedMemory.Proofs.Storage.Change

/-!
# How full windows are

The number of entries in a window is a sum over its segments.  Two windows of
the tree are nested or apart, so a change within one window shows in the windows
around it, in those inside it and in no others.
-/

namespace PackedMemory

namespace Window

theorem mem_segments {window : Window} {number : Nat} :
    number ∈ window.segments ↔
      window.start ≤ number ∧ number < window.start + window.length :=
  List.mem_range'_1

theorem notMem_segments {window : Window} {number : Nat} :
    number ∉ window.segments ↔
      number < window.start ∨ window.start + window.length ≤ number := by
  rw [mem_segments]
  omega

theorem around_length (segment level : Nat) :
    (around segment level).length = lengthAt level := rfl

theorem around_of_dvd {segment level : Nat} (h : lengthAt level ∣ segment) :
    around segment level = ⟨segment, lengthAt level⟩ := by
  rw [around, Nat.mod_eq_zero_of_dvd h, Nat.sub_zero]

theorem around_within {low high inner outer : Nat} (h : low ≤ high)
    (hsame : inner / lengthAt high = outer / lengthAt high) :
    (around outer high).start ≤ (around inner low).start ∧
      (around inner low).start + (around inner low).length ≤
        (around outer high).start + (around outer high).length := by
  obtain ⟨factor, hfactor⟩ := lengthAt_dvd h
  have hfactorPos : 0 < factor := by
    rcases Nat.eq_zero_or_pos factor with rfl | hpos
    · exact absurd hfactor (lengthAt_pos high).ne'
    · exact hpos
  rw [around_start, around_start, around_length, around_length, ← hsame,
    hfactor, ← Nat.div_div_eq_div_mul]
  generalize inner / lengthAt low = place
  have hlow := Nat.div_mul_le_self place factor
  have hhigh := Nat.lt_div_mul_add hfactorPos (a := place)
  constructor
  · calc
      place / factor * (lengthAt low * factor) =
          place / factor * factor * lengthAt low := by ring
      _ ≤ place * lengthAt low := Nat.mul_le_mul_right _ hlow
  · calc
      place * lengthAt low + lengthAt low = (place + 1) * lengthAt low := by ring
      _ ≤ (place / factor * factor + factor) * lengthAt low :=
          Nat.mul_le_mul_right _ hhigh
      _ = place / factor * (lengthAt low * factor) + lengthAt low * factor := by
          ring

theorem around_apart {level inner outer : Nat}
    (h : inner / lengthAt level ≠ outer / lengthAt level) :
    (around inner level).start + (around inner level).length ≤
        (around outer level).start ∨
      (around outer level).start + (around outer level).length ≤
        (around inner level).start := by
  rw [around_start, around_start, around_length, around_length]
  rcases Nat.lt_or_gt_of_ne h with hlt | hgt
  · left
    rw [← Nat.succ_mul]
    exact Nat.mul_le_mul_right _ hlt
  · right
    rw [← Nat.succ_mul]
    exact Nat.mul_le_mul_right _ hgt

theorem div_lengthAt_congr {low high first second : Nat} (h : low ≤ high)
    (hsame : first / lengthAt low = second / lengthAt low) :
    first / lengthAt high = second / lengthAt high := by
  obtain ⟨factor, hfactor⟩ := lengthAt_dvd h
  rw [hfactor, ← Nat.div_div_eq_div_mul, ← Nat.div_div_eq_div_mul, hsame]

theorem around_congr {level first second : Nat}
    (h : first / lengthAt level = second / lengthAt level) :
    around first level = around second level := by
  have hstart := around_start first level
  rw [h, ← around_start] at hstart
  exact congrArg (Window.mk · (lengthAt level)) hstart

end Window

theorem around_start_le (segment level : Nat) :
    (Window.around segment level).start ≤ segment :=
  Nat.sub_le _ _

theorem lt_around_end (segment level : Nat) :
    segment < (Window.around segment level).start +
      (Window.around segment level).length := by
  have hmod := Nat.mod_lt segment (Window.lengthAt_pos level)
  simp only [Window.around]
  omega

theorem around_start_add_length_le {segment level count : Nat}
    (hsegment : segment < count) (hlevel : Window.lengthAt level ∣ count) :
    (Window.around segment level).start +
      (Window.around segment level).length ≤ count := by
  obtain ⟨windows, rfl⟩ := hlevel
  have hwindow : segment / Window.lengthAt level < windows :=
    Nat.div_lt_of_lt_mul hsegment
  rw [Window.around_start]
  change _ + Window.lengthAt level ≤ _
  rw [← Nat.succ_mul, Nat.mul_comm]
  exact Nat.mul_le_mul_left _ hwindow

namespace Storage

variable {storage : Storage} {window inner : Window} {number : Nat}

theorem length_partsOf
    (h : window.start + window.length ≤ storage.segmentCount) :
    (storage.partsOf window).length = window.length := by
  rw [partsOf, List.length_take, List.length_drop, length_parts]
  omega

theorem take_partsOf_drop (storage : Storage) (window : Window) :
    storage.parts.take window.start ++ storage.partsOf window ++
      storage.parts.drop (window.start + window.length) = storage.parts := by
  rw [List.append_assoc, partsOf, ← List.drop_drop, List.take_append_drop,
    List.take_append_drop]

theorem entries_dealOut_partsOf (hlength : 0 < window.length)
    (hwindow : window.start + window.length ≤ storage.segmentCount) :
    (storage.dealOut window (storage.partsOf window).flatten).entries =
      storage.entries := by
  rw [entries_eq_flatten, parts_dealOut hwindow, List.flatten_append,
    List.flatten_append, flatten_deal_shares hlength, entries_eq_flatten,
    ← List.flatten_append, ← List.flatten_append, take_partsOf_drop]

def whole (storage : Storage) : Window := ⟨0, storage.segmentCount⟩

theorem Exact.length_whole_pos (h : storage.Exact) :
    0 < storage.whole.length := by
  have hcount := h.shaped.two_le_segmentCount
  simp only [whole]
  omega

theorem Exact.capacity_pos (h : storage.Exact) : 0 < storage.capacity :=
  Nat.mul_pos h.length_whole_pos
    (Nat.zero_lt_of_lt h.shaped.two_le_segmentCapacity)

theorem occupied_blank (capacity : Nat) (window : Window) :
    (blank capacity).occupied window = 0 := by
  rw [occupied, partsOf, parts_blank, List.drop_replicate, List.take_replicate,
    List.flatten_replicate_nil, List.length_nil]

/-! ## Sums over windows -/

def filled (storage : Storage) (number : Nat) : Nat :=
  (storage.parts.getD number []).length

theorem filled_eq {segment : Segment}
    (h : storage.segments[number]? = some segment) :
    storage.filled number = segment.entries.length := by
  rw [filled, List.getD_eq_getElem?_getD, part_eq h]
  rfl

theorem Exact.filled_le (h : storage.Exact) (number : Nat) :
    storage.filled number ≤ storage.segmentCapacity := by
  rw [filled, List.getD_eq_getElem?_getD]
  cases hpart : storage.parts[number]? with
  | none => exact Nat.zero_le _
  | some part =>
      obtain ⟨segment, hsegment, rfl⟩ :=
        List.mem_map.mp (List.mem_of_getElem? hpart)
      rw [← h.length_segment segment (Array.mem_toList_iff.mp hsegment)]
      exact Segment.length_entries_le segment

theorem occupied_eq_sum (storage : Storage) (window : Window) :
    storage.occupied window =
      ∑ number ∈ Finset.Ico window.start (window.start + window.length),
        storage.filled number := by
  rw [occupied, partsOf]
  induction window.length with
  | zero => simp
  | succ length ih =>
      rw [← Nat.add_assoc, Finset.sum_Ico_succ_top (by omega), ← ih,
        List.take_add_one, List.flatten_append, List.length_append,
        List.getElem?_drop, filled, List.getD_eq_getElem?_getD]
      cases storage.parts[window.start + length]? <;> simp

theorem filled_le_occupied (storage : Storage)
    (hlow : window.start ≤ number)
    (hhigh : number < window.start + window.length) :
    storage.filled number ≤ storage.occupied window := by
  rw [occupied_eq_sum]
  exact Finset.single_le_sum (fun _ _ => Nat.zero_le _)
    (Finset.mem_Ico.mpr ⟨hlow, hhigh⟩)

theorem occupied_congr {other : Storage}
    (h : ∀ number, window.start ≤ number →
      number < window.start + window.length →
        other.filled number = storage.filled number) :
    other.occupied window = storage.occupied window := by
  rw [occupied_eq_sum, occupied_eq_sum]
  refine Finset.sum_congr rfl fun number hnumber => ?_
  obtain ⟨hlow, hhigh⟩ := Finset.mem_Ico.mp hnumber
  exact h number hlow hhigh

/-- One entry less in a segment is one less in every window around it. -/
theorem occupied_eq_succ {other : Storage}
    (h : ∀ position, storage.filled position =
      other.filled position + if position = number then 1 else 0)
    (hlow : window.start ≤ number)
    (hhigh : number < window.start + window.length) :
    storage.occupied window = other.occupied window + 1 := by
  rw [occupied_eq_sum, occupied_eq_sum,
    Finset.sum_congr rfl fun position _ => h position, Finset.sum_add_distrib,
    Finset.sum_ite_eq', if_pos (Finset.mem_Ico.mpr ⟨hlow, hhigh⟩)]

theorem occupied_le_occupied {other : Storage}
    (h : ∀ number, other.filled number ≤ storage.filled number)
    (window : Window) : other.occupied window ≤ storage.occupied window := by
  rw [occupied_eq_sum, occupied_eq_sum]
  exact Finset.sum_le_sum fun number _ => h number

theorem occupied_le_mul {bound : Nat}
    (h : ∀ number, storage.filled number ≤ bound) (window : Window) :
    storage.occupied window ≤ window.length * bound := by
  rw [occupied_eq_sum]
  have hsum := Finset.sum_le_card_nsmul
    (Finset.Ico window.start (window.start + window.length)) storage.filled
    bound fun number _ => h number
  rwa [Nat.card_Ico, Nat.add_sub_cancel_left, smul_eq_mul] at hsum

theorem Exact.occupied_le (h : storage.Exact) (window : Window) :
    storage.occupied window ≤ window.length * storage.segmentCapacity :=
  occupied_le_mul h.filled_le window

theorem Exact.lengthAt_height (h : storage.Exact) :
    Window.lengthAt storage.height = storage.segmentCount := by
  obtain ⟨depth, -, hcount, hheight⟩ := h.size_held
  rw [hcount, hheight]
  rfl

theorem Exact.lengthAt_dvd (h : storage.Exact) {level : Nat}
    (hlevel : level ≤ storage.height) :
    Window.lengthAt level ∣ storage.segmentCount := by
  obtain ⟨depth, -, hcount, hheight⟩ := h.size_held
  rw [hcount]
  exact Nat.pow_dvd_pow 2 (by omega)

theorem Exact.around_le (h : storage.Exact) {segment level : Nat}
    (hsegment : segment < storage.segmentCount)
    (hlevel : level ≤ storage.height) :
    (Window.around segment level).start +
      (Window.around segment level).length ≤ storage.segmentCount :=
  around_start_add_length_le hsegment (h.lengthAt_dvd hlevel)

theorem Exact.two_le_height (h : storage.Exact) : 2 ≤ storage.height := by
  obtain ⟨depth, -, hcount, hheight⟩ := h.size_held
  have htwo := h.shaped.two_le_segmentCount
  have hdepth : depth ≠ 0 := by
    rintro rfl
    omega
  omega

theorem occupied_whole (storage : Storage) :
    storage.occupied storage.whole = storage.entries.length := by
  rw [whole, occupied, partsOf, List.drop_zero,
    List.take_of_length_le (by simp), entries_eq_flatten]

/-! ## Changes -/

theorem filled_setIfInBounds (hnumber : number < storage.segmentCount)
    (segment : Segment) (other : Nat) :
    (storage.withSegments
      (storage.segments.setIfInBounds number segment)).filled other =
        if other = number then segment.entries.length
        else storage.filled other := by
  rw [← length_parts] at hnumber
  rw [filled, filled, parts_setIfInBounds, List.getD_eq_getElem?_getD,
    List.getD_eq_getElem?_getD]
  by_cases hsame : other = number
  · rw [if_pos hsame, hsame, List.getElem?_set_self hnumber]
    rfl
  · rw [if_neg hsame, List.getElem?_set_ne (Ne.symm hsame)]

theorem Exact.isFull_iff (h : storage.Exact)
    (hnumber : number < storage.segmentCount) :
    storage.isFull number = true ↔
      storage.filled number = storage.segmentCapacity := by
  obtain ⟨segment, hsegment⟩ := exists_segment hnumber
  rw [h.isFull_eq hsegment, beq_iff_eq, filled_eq hsegment]

theorem filled_blank (capacity number : Nat) :
    (blank capacity).filled number = 0 := by
  rw [filled, parts_blank, List.getD_eq_getElem?_getD, List.getElem?_replicate]
  split <;> rfl

theorem filled_dealOut_of_apart
    (hwindow : window.start + window.length ≤ storage.segmentCount)
    (entries : List Entry)
    (h : number < window.start ∨ window.start + window.length ≤ number) :
    (storage.dealOut window entries).filled number =
      storage.filled number := by
  rw [filled, filled, parts_dealOut hwindow,
    List.getD_eq_getElem?_getD, List.getD_eq_getElem?_getD]
  congr 2
  rcases h with hbefore | hafter
  · rw [List.append_assoc, List.getElem?_append_left (by simp; omega),
      List.getElem?_take_of_lt hbefore]
  · rw [List.getElem?_append_right (by simp; omega), List.getElem?_drop]
    congr 1
    simp
    omega

theorem partsOf_dealOut
    (hwindow : window.start + window.length ≤ storage.segmentCount)
    (entries : List Entry) {offset run : Nat}
    (h : offset + run ≤ window.length) :
    (storage.dealOut window entries).partsOf ⟨window.start + offset, run⟩ =
      ((deal (shares entries.length window.length) entries).drop offset).take
        run := by
  have hstart : (storage.parts.take window.start).length = window.start := by
    rw [List.length_take, length_parts]
    omega
  rw [partsOf, parts_dealOut hwindow, List.append_assoc, ← List.drop_drop,
    List.drop_left' hstart, List.drop_append_of_le_length (by simp; omega),
    List.take_append_of_le_length (by simp; omega)]

theorem occupied_dealOut (hlength : 0 < window.length)
    (hwindow : window.start + window.length ≤ storage.segmentCount)
    (entries : List Entry) {offset run : Nat}
    (h : offset + run ≤ window.length) :
    (storage.dealOut window entries).occupied ⟨window.start + offset, run⟩ =
      (((shares entries.length window.length).drop offset).take run).sum := by
  rw [occupied, partsOf_dealOut hwindow entries h, List.length_flatten,
    List.map_take, List.map_drop, map_length_deal_shares hlength]

theorem occupied_dealOut_le (hlength : 0 < window.length)
    (hwindow : window.start + window.length ≤ storage.segmentCount)
    (entries : List Entry) (hlow : window.start ≤ inner.start)
    (hhigh : inner.start + inner.length ≤ window.start + window.length) :
    (storage.dealOut window entries).occupied inner ≤
      inner.length * (entries.length / window.length) +
        min inner.length (entries.length % window.length) := by
  obtain ⟨start, run⟩ := inner
  obtain ⟨offset, rfl⟩ := Nat.exists_eq_add_of_le hlow
  rw [occupied_dealOut hlength hwindow entries (by simp only at hhigh; omega)]
  exact sum_run_shares_le _ _ _ _

theorem occupied_dealOut_first (hlength : 0 < window.length)
    (hwindow : window.start + window.length ≤ storage.segmentCount)
    (entries : List Entry) {run : Nat} (h : run ≤ window.length) :
    (storage.dealOut window entries).occupied ⟨window.start, run⟩ =
      run * (entries.length / window.length) +
        min run (entries.length % window.length) := by
  have hfirst : (storage.dealOut window entries).occupied
      ⟨window.start + 0, run⟩ = _ :=
    occupied_dealOut hlength hwindow entries (by omega)
  rwa [Nat.add_zero, List.drop_zero, sum_take_shares h] at hfirst

theorem filled_dealOut (hlength : 0 < window.length)
    (hwindow : window.start + window.length ≤ storage.segmentCount)
    (entries : List Entry) {offset : Nat} (h : offset < window.length) :
    (storage.dealOut window entries).filled (window.start + offset) =
      entries.length / window.length +
        if offset < entries.length % window.length then 1 else 0 := by
  have hone := occupied_dealOut hlength hwindow entries
    (show offset + 1 ≤ window.length from h)
  rw [occupied_eq_sum, Nat.Ico_succ_singleton, Finset.sum_singleton,
    List.drop_eq_getElem_cons (by simpa using h), List.take_succ_cons,
    List.take_zero, List.sum_singleton] at hone
  simpa [shares] using hone

theorem occupied_dealOut_of_within (hlength : 0 < window.length)
    (hwindow : window.start + window.length ≤ storage.segmentCount)
    {outer : Window} (hlow : outer.start ≤ window.start)
    (hhigh : window.start + window.length ≤ outer.start + outer.length) :
    (storage.dealOut window (storage.partsOf window).flatten).occupied outer =
      storage.occupied outer := by
  have hself : (storage.dealOut window
      (storage.partsOf window).flatten).occupied window =
        storage.occupied window := by
    rw [occupied, partsOf_dealOut_self hwindow, flatten_deal_shares hlength,
      occupied]
  rw [occupied_eq_sum, occupied_eq_sum] at hself
  rw [occupied_eq_sum, occupied_eq_sum,
    ← Finset.sum_Ico_consecutive _ hlow (by omega),
    ← Finset.sum_Ico_consecutive (storage.filled) hlow (by omega),
    ← Finset.sum_Ico_consecutive _ (Nat.le_add_right _ window.length) hhigh,
    ← Finset.sum_Ico_consecutive (storage.filled)
      (Nat.le_add_right _ window.length) hhigh, hself]
  have hapart {first last : Nat}
      (h : last ≤ window.start ∨ window.start + window.length ≤ first) :
      ∑ number ∈ Finset.Ico first last, (storage.dealOut window
          (storage.partsOf window).flatten).filled number =
        ∑ number ∈ Finset.Ico first last, storage.filled number := by
    refine Finset.sum_congr rfl fun number hnumber => ?_
    obtain ⟨hfirst, hlast⟩ := Finset.mem_Ico.mp hnumber
    exact filled_dealOut_of_apart hwindow _ (by omega)
  rw [hapart (.inl (Nat.le_refl _)), hapart (.inr (Nat.le_refl _))]

end Storage

end PackedMemory
