import PackedMemory.Proofs.PackedArray.Change

/-!
# Windows within their bounds

A change in one segment shows only in the windows around it, and a spread only
in the windows that do not contain the one that is spread.  All other windows
are as full as before, so whatever the gauge has said of them it still says.
-/

namespace PackedMemory

namespace PackedArray

variable {ρ ι : Type} {array new : PackedArray ρ ι}

structure SameShape (old new : PackedArray ρ ι) : Prop where
  policy_eq : new.policy = old.policy
  segmentCapacity_eq : new.storage.segmentCapacity = old.storage.segmentCapacity
  segmentCount_eq : new.storage.segmentCount = old.storage.segmentCount
  height_eq : new.storage.height = old.storage.height

namespace SameShape

theorem trans {mid : PackedArray ρ ι} (h : SameShape array mid)
    (h' : SameShape mid new) : SameShape array new :=
  ⟨h'.policy_eq.trans h.policy_eq,
    h'.segmentCapacity_eq.trans h.segmentCapacity_eq,
    h'.segmentCount_eq.trans h.segmentCount_eq, h'.height_eq.trans h.height_eq⟩

theorem gauge_eq (h : SameShape array new) : new.gauge = array.gauge := by
  rw [gauge, gauge, h.policy_eq, h.segmentCapacity_eq, h.height_eq]

theorem capacity_eq (h : SameShape array new) :
    new.capacity = array.capacity := by
  rw [capacity, capacity, Storage.capacity, Storage.capacity,
    h.segmentCount_eq, h.segmentCapacity_eq]

theorem canGrow_iff (h : SameShape array new) :
    new.CanGrow ↔ array.CanGrow := by
  rw [CanGrow, CanGrow, h.policy_eq, h.capacity_eq]

end SameShape

section Changes

variable [OrderIndex ι]

theorem occupied_spreadOut_of_apart {window inner : Window}
    (hwindow : window.start + window.length ≤ array.storage.segmentCount)
    (h : inner.start + inner.length ≤ window.start ∨
      window.start + window.length ≤ inner.start) :
    (array.spreadOut window).storage.occupied inner =
      array.storage.occupied inner := by
  refine Storage.occupied_congr fun number hlow hhigh => ?_
  exact Storage.filled_dealOut_of_apart hwindow _ (by omega)

variable [LawfulIndex ι]

theorem sameShape_spreadOut (h : Consistent array) {segment level : Nat}
    (hsegment : segment < array.storage.segmentCount)
    (hlevel : level ≤ array.storage.height) :
    SameShape array (array.spreadOut (Window.around segment level)) := by
  have hnew := (rearranges_spreadOut h (Window.lengthAt_pos level)
    (h.exact.around_le hsegment hlevel)).consistent
  have hcount := array.segmentCount_spreadOut (Window.around segment level)
  exact ⟨rfl, rfl, hcount, h.exact.height_congr hnew.exact hcount⟩

theorem Exchanges.sameShape {number : Nat} {before after : Segment}
    (h : Exchanges number before after array new)
    (harray : Consistent array) : SameShape array new :=
  ⟨h.policy_eq, h.segmentCapacity_eq, h.segmentCount_eq, h.height_eq harray⟩

end Changes

/-! ## Windows that fit -/

variable [Quantity ρ] {segment other level : Nat}

def Fits (array : PackedArray ρ ι) (segment level : Nat) : Prop :=
  array.gauge.isOverfull level
    (array.storage.occupied (Window.around segment level)) = false

theorem fits_congr
    (h : other / Window.lengthAt level = segment / Window.lengthAt level) :
    array.Fits other level ↔ array.Fits segment level := by
  rw [Fits, Fits, Window.around_congr h]

omit [Quantity ρ] in
theorem occupied_root (hexact : array.storage.Exact)
    (hsegment : segment < array.storage.segmentCount) :
    array.storage.occupied (Window.around segment array.storage.height) =
      array.size := by
  have hwhole : Window.around segment array.storage.height =
      array.storage.whole := by
    rw [Window.around, hexact.lengthAt_height, Nat.mod_eq_of_lt hsegment,
      Nat.sub_self]
    rfl
  rw [hwhole, Storage.occupied_whole, ← hexact.total_eq]
  rfl

theorem Fits.size_lt_capacity (h : array.Fits segment array.storage.height)
    (hexact : array.storage.Exact)
    (hsegment : segment < array.storage.segmentCount) :
    array.size < array.capacity := by
  have hslots := hexact.shaped.two_le_segmentCapacity
  have hcount := ((array.gauge.isOverfull_eq_false_iff _ _).mp h).1
  rw [occupied_root hexact hsegment, hexact.lengthAt_height] at hcount
  exact Nat.lt_of_le_of_lt hcount (Nat.mul_lt_mul_of_pos_left
    (by simp only [gauge]; omega) hexact.length_whole_pos)

theorem Fits.of_eq (h : array.Fits segment level)
    (hshape : SameShape array new)
    (heq : new.storage.occupied (Window.around segment level) =
      array.storage.occupied (Window.around segment level)) :
    new.Fits segment level := by
  rw [Fits, hshape.gauge_eq, heq]
  exact h

theorem Fits.of_apart (h : array.Fits other level)
    (hshape : SameShape array new)
    (hsame : ∀ number, number ≠ segment →
      new.storage.filled number = array.storage.filled number)
    (hapart : other / Window.lengthAt level ≠ segment / Window.lengthAt level) :
    new.Fits other level := by
  refine h.of_eq hshape ?_
  refine Storage.occupied_congr fun number hnumber hnumber' => hsame number ?_
  rintro rfl
  have hstart := around_start_le number level
  have hend := lt_around_end number level
  rcases Window.around_apart hapart with hbefore | hafter
  · omega
  · omega

variable [OrderIndex ι] [LawfulIndex ι] {sub : Nat}

theorem Fits.spreadOut_apart (hfits : array.Fits other sub)
    (h : Consistent array) (hsegment : segment < array.storage.segmentCount)
    (hlevel : level ≤ array.storage.height)
    (hapart : other / Window.lengthAt (max level sub) ≠
      segment / Window.lengthAt (max level sub)) :
    (array.spreadOut (Window.around segment level)).Fits other sub := by
  have hwindow := h.exact.around_le hsegment hlevel
  have hshape := sameShape_spreadOut h hsegment hlevel
  obtain ⟨hstart, hend⟩ := Window.around_within (Nat.le_max_right level sub)
    (Eq.refl (other / Window.lengthAt (max level sub)))
  obtain ⟨hstart', hend'⟩ := Window.around_within (Nat.le_max_left level sub)
    (Eq.refl (segment / Window.lengthAt (max level sub)))
  have hbetween := Window.around_apart hapart
  exact hfits.of_eq hshape (occupied_spreadOut_of_apart hwindow (by omega))

theorem Fits.spreadOut_above (hfits : array.Fits segment sub)
    (h : Consistent array) (hsegment : segment < array.storage.segmentCount)
    (hlevel : level ≤ array.storage.height) (hsub : level ≤ sub) :
    (array.spreadOut (Window.around segment level)).Fits segment sub := by
  have hlength := Window.lengthAt_pos level
  have hwindow := h.exact.around_le hsegment hlevel
  obtain ⟨hstart, hend⟩ := Window.around_within hsub
    (Eq.refl (segment / Window.lengthAt sub))
  exact hfits.of_eq (sameShape_spreadOut h hsegment hlevel)
    (Storage.occupied_dealOut_of_within hlength hwindow hstart hend)

/--
A spread that settles the windows around one segment leaves each window that is
not inside the one spread within its bounds: it contains the first segment too,
or it is untouched and was within its bounds before.
-/
theorem fits_spreadOut_beyond (h : Consistent array)
    (hsegment : segment < array.storage.segmentCount)
    (hlevel : level ≤ array.storage.height)
    (hsettles : array.gauge.settles (array.readings segment)
      (array.readingAt segment level) = true)
    (hlow : 2 ≤ sub) (hhigh : sub ≤ array.storage.height)
    (hbeyond : other / Window.lengthAt level =
      segment / Window.lengthAt level → level < sub)
    (hbeside : other / Window.lengthAt sub ≠ segment / Window.lengthAt sub →
      array.Fits other sub) :
    (array.spreadOut (Window.around segment level)).Fits other sub := by
  by_cases hsame : other / Window.lengthAt sub = segment / Window.lengthAt sub
  · have hsub : level < sub := by
      by_contra hle
      exact hle (hbeyond (Window.div_lengthAt_congr (by omega) hsame))
    have hfits : array.Fits segment sub := by
      by_contra hover
      have hlt := ((array.gauge.settles_iff _ _).mp hsettles).2
        (array.readingAt segment sub)
        (mem_readings.mpr ⟨sub, hlow, hhigh, rfl⟩)
        (Bool.not_eq_false _ |>.mp hover)
      exact absurd hlt (Nat.not_lt.mpr hsub.le)
    rw [fits_congr hsame]
    exact hfits.spreadOut_above h hsegment hlevel hsub.le
  · refine (hbeside hsame).spreadOut_apart h hsegment hlevel ?_
    rcases Nat.le_total level sub with hsub | hsub
    · rwa [max_eq_right hsub]
    · rw [max_eq_left hsub]
      intro hin
      exact absurd (hbeyond hin) (Nat.not_lt.mpr hsub)

end PackedArray

end PackedMemory
