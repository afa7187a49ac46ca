import PackedMemory.Index.Sorted
import PackedMemory.Proofs.Index.Lawful

/-!
# The sorted index is lawful

The two arrays of a sorted index are the keys and the segments of one list of
leaders.  A search parts this list at a key, and every operation changes it at
that place only.
-/

namespace PackedMemory

structure Parted (leaders : List Leader) (key : Key) (before : List Leader)
    (found : Option Nat) (after : List Leader) : Prop where
  eq_append :
    leaders = before ++ (found.toList.map fun segment => (key, segment)) ++ after
  below : ∀ leader ∈ before, leader.1 < key
  above : ∀ leader ∈ after, key < leader.1

namespace Parted

variable {leaders before after : List Leader} {key : Key} {found : Option Nat}

theorem mem_iff (h : Parted leaders key before found after)
    (leader : Leader) :
    leader.1 ≠ key ∧ leader ∈ leaders ↔ leader ∈ before ++ after := by
  obtain ⟨rfl, hbelow, habove⟩ := h
  simp only [List.mem_append, List.mem_map, Option.mem_toList]
  constructor
  · rintro ⟨hkey, (hmem | ⟨segment, -, rfl⟩) | hmem⟩
    · exact .inl hmem
    · exact absurd rfl hkey
    · exact .inr hmem
  · rintro (hmem | hmem)
    · have hlt := hbelow leader hmem
      exact ⟨by grind, .inl (.inl hmem)⟩
    · have hlt := habove leader hmem
      exact ⟨by grind, .inr hmem⟩

theorem found_eq_some_iff (h : Parted leaders key before found after)
    (segment : Nat) : found = some segment ↔ (key, segment) ∈ leaders := by
  obtain ⟨rfl, hbelow, habove⟩ := h
  simp only [List.mem_append, List.mem_map, Option.mem_toList]
  constructor
  · intro hfound
    exact .inl (.inr ⟨segment, hfound, rfl⟩)
  · rintro ((hmem | ⟨other, hfound, hpair⟩) | hmem)
    · exact absurd (hbelow _ hmem) Int64.lt_irrefl
    · cases hpair
      exact hfound
    · exact absurd (habove _ hmem) Int64.lt_irrefl

theorem ascending_append (h : Parted leaders key before found after)
    (hleaders : Ascending Prod.fst leaders) :
    Ascending Prod.fst (before ++ after) := by
  refine List.Pairwise.sublist ?_ hleaders
  rw [h.eq_append]
  exact (List.sublist_append_left before _).append_right after

theorem ascending_place (h : Parted leaders key before found after)
    (hleaders : Ascending Prod.fst leaders) {new : Key} (segment : Nat)
    (hbelow : ∀ leader ∈ before, leader.1 < new)
    (habove : ∀ leader ∈ after, new < leader.1) :
    Ascending Prod.fst (before ++ (new, segment) :: after) := by
  have hparts := List.pairwise_append.mp (h.ascending_append hleaders)
  exact (ascending_append_cons_iff _ _ _).mpr
    ⟨hparts.1, hparts.2.1, hbelow, habove⟩

theorem floorSegment_eq (h : Parted leaders key before found after)
    (best : Nat) :
    floorSegment key leaders best =
      found.getD ((before.getLast?.map Prod.snd).getD best) := by
  obtain ⟨rfl, hbelow, habove⟩ := h
  have hle : ∀ leader ∈ before, leader.1 ≤ key := fun leader hleader =>
    Int64.le_of_lt (hbelow leader hleader)
  rw [floorSegment_append_of_forall_lt habove, floorSegment_append hle]
  cases found with
  | none => rfl
  | some segment => simp [floorSegment, Int64.lt_irrefl]

end Parted

namespace SortedIndex

def Lists (index : SortedIndex) (leaders : List Leader) : Prop :=
  index.keys.toList = leaders.map Prod.fst ∧
    index.segments.toList = leaders.map Prod.snd

theorem Lists.entries_eq {index : SortedIndex} {leaders : List Leader}
    (h : index.Lists leaders) : index.entries = leaders := by
  rw [SortedIndex.entries, h.1, h.2]
  exact (List.zip_of_prod rfl rfl).symm

theorem Lists.valid {index : SortedIndex} {leaders : List Leader}
    (h : index.Lists leaders) (hleaders : Ascending Prod.fst leaders) :
    index.Lists index.entries ∧ Ascending Prod.fst index.entries := by
  rw [h.entries_eq]
  exact ⟨h, hleaders⟩

theorem Lists.size_keys {index : SortedIndex} {leaders : List Leader}
    (h : index.Lists leaders) : index.keys.size = leaders.length := by
  rw [← Array.length_toList, h.1, List.length_map]

theorem Lists.getElem?_keys {index : SortedIndex} {leaders : List Leader}
    (h : index.Lists leaders) (position : Nat) :
    index.keys[position]? = leaders[position]?.map Prod.fst := by
  rw [← Array.getElem?_toList, h.1, List.getElem?_map]

theorem Lists.getD_keys {index : SortedIndex} {leaders : List Leader}
    (h : index.Lists leaders) {position : Nat}
    (hposition : position < leaders.length) :
    index.keys.getD position 0 = leaders[position].1 := by
  rw [Array.getD_eq_getD_getElem?, h.getElem?_keys,
    List.getElem?_eq_getElem hposition]
  rfl

theorem Lists.lt_iff_lt_lowerBound {index : SortedIndex}
    {leaders : List Leader} (h : index.Lists leaders)
    (hleaders : Ascending Prod.fst leaders) (key : Key) {position : Nat}
    (hposition : position < leaders.length) :
    leaders[position].1 < key ↔ position < index.lowerBound key := by
  have hsorted : ∀ left right, left < right → right < index.keys.size →
      index.keys.getD left 0 < index.keys.getD right 0 := by
    intro left right hlt hright
    rw [h.size_keys] at hright
    rw [h.getD_keys hright, h.getD_keys (by omega)]
    exact List.pairwise_iff_getElem.mp hleaders left right _ hright hlt
  rw [← h.getD_keys hposition]
  exact lt_iff_lt_search hsorted (Nat.zero_le index.keys.size) (Nat.le_refl _)
    (Nat.zero_le position) (by rw [h.size_keys]; exact hposition)

theorem Lists.lowerBound_le {index : SortedIndex} {leaders : List Leader}
    (h : index.Lists leaders) (key : Key) :
    index.lowerBound key ≤ leaders.length := by
  rw [← h.size_keys]
  exact (search_bounds index.keys key (Nat.zero_le _)).2

theorem Lists.exists_parted {index : SortedIndex} {leaders : List Leader}
    (h : index.Lists leaders) (hleaders : Ascending Prod.fst leaders)
    (key : Key) :
    ∃ before found after, Parted leaders key before found after ∧
      before.length = index.lowerBound key ∧
      index.position? key = found.map fun _ => index.lowerBound key := by
  have hbound := h.lowerBound_le key
  have hbelow : ∀ leader ∈ leaders.take (index.lowerBound key),
      leader.1 < key := by
    intro leader hleader
    obtain ⟨position, hposition, rfl⟩ := List.mem_take_iff_getElem.mp hleader
    exact (h.lt_iff_lt_lowerBound hleaders key (by omega)).mpr (by omega)
  have hlength : (leaders.take (index.lowerBound key)).length =
      index.lowerBound key := List.length_take_of_le hbound
  have hsplit := List.take_append_drop (index.lowerBound key) leaders
  have hrest : Ascending Prod.fst (leaders.drop (index.lowerBound key)) :=
    hleaders.sublist (List.drop_sublist _ _)
  have hkey : index.keys[index.lowerBound key]? =
      (leaders.drop (index.lowerBound key)).head?.map Prod.fst := by
    rw [h.getElem?_keys, List.head?_drop]
  cases hdrop : leaders.drop (index.lowerBound key) with
  | nil =>
      rw [hdrop] at hkey hsplit
      refine ⟨_, none, [], ⟨?_, hbelow, by simp⟩, hlength, ?_⟩
      · simpa using hsplit.symm
      · simp [position?, hkey]
  | cons leader after =>
      rw [hdrop] at hkey hsplit hrest
      have hposition : index.lowerBound key < leaders.length := by
        by_contra hnot
        rw [List.drop_of_length_le (by omega)] at hdrop
        contradiction
      have hleader : leaders[index.lowerBound key] = leader := by
        rw [List.drop_eq_getElem_cons hposition] at hdrop
        exact (List.cons.inj hdrop).1
      have hge : ¬leader.1 < key := by
        rw [← hleader, h.lt_iff_lt_lowerBound hleaders key hposition]
        exact Nat.lt_irrefl _
      have hafter := (List.pairwise_cons.mp hrest).1
      by_cases heq : leader.1 = key
      · refine ⟨_, some leader.2, after, ⟨?_, hbelow, ?_⟩, hlength, ?_⟩
        · simpa [← heq] using hsplit.symm
        · rw [← heq]
          exact hafter
        · simp [position?, hkey, heq]
      · refine ⟨_, none, leader :: after, ⟨?_, hbelow, ?_⟩, hlength, ?_⟩
        · simpa using hsplit.symm
        · exact (hrest.lt_forall_cons_iff key).mpr (by grind)
        · simp [position?, hkey, heq]

/-! ## Changes at one place -/

section Cells

variable {α : Type} {cells : Array α} {before after : List α} {value : α}

theorem toList_insertIdxIfInBounds (h : cells.toList = before ++ after)
    (value : α) :
    (cells.insertIdxIfInBounds before.length value).toList =
      before ++ value :: after := by
  have hsize : before.length ≤ cells.size := by
    rw [← Array.length_toList, h]
    simp
  rw [Array.insertIdxIfInBounds, dif_pos hsize, Array.toList_insertIdx, h]
  clear h hsize
  induction before with
  | nil => rfl
  | cons first before ih => simp [ih]

theorem toList_eraseIdxIfInBounds
    (h : cells.toList = before ++ value :: after) :
    (cells.eraseIdxIfInBounds before.length).toList = before ++ after := by
  rw [Array.toList_eraseIdxIfInBounds, h,
    List.eraseIdx_append_of_length_le (Nat.le_refl _)]
  simp

theorem toList_setIfInBounds {other : α}
    (h : cells.toList = before ++ other :: after) (value : α) :
    (cells.setIfInBounds before.length value).toList =
      before ++ value :: after := by
  rw [Array.toList_setIfInBounds, h, List.set_append_right _ _ (Nat.le_refl _)]
  simp

end Cells

theorem Lists.eraseAt {index : SortedIndex} {before after : List Leader}
    {leader : Leader} (h : index.Lists (before ++ leader :: after)) :
    (index.eraseAt before.length).Lists (before ++ after) := by
  obtain ⟨hkeys, hsegments⟩ := h
  rw [List.map_append, List.map_cons] at hkeys hsegments
  constructor
  · have herase := toList_eraseIdxIfInBounds hkeys
    rwa [List.length_map, ← List.map_append] at herase
  · have herase := toList_eraseIdxIfInBounds hsegments
    rwa [List.length_map, ← List.map_append] at herase

theorem Lists.insert {index : SortedIndex} {leaders before after : List Leader}
    {key : Key} {found : Option Nat} (h : index.Lists leaders)
    (hparted : Parted leaders key before found after)
    (hlength : before.length = index.lowerBound key)
    (hposition : index.position? key = found.map fun _ => index.lowerBound key)
    (segment : Nat) :
    (index.insert key segment).Lists (before ++ (key, segment) :: after) := by
  obtain ⟨rfl, -, -⟩ := hparted
  obtain ⟨hkeys, hsegments⟩ := h
  rw [← hlength] at hposition
  cases found with
  | none =>
      simp only [Option.toList_none, List.map_nil, List.append_nil,
        List.map_append] at hkeys hsegments
      simp only [SortedIndex.insert, hposition, Option.map_none, ← hlength,
        Lists, List.map_append, List.map_cons]
      constructor
      · simpa using toList_insertIdxIfInBounds hkeys key
      · simpa using toList_insertIdxIfInBounds hsegments segment
  | some other =>
      simp only [Option.toList_some, List.map_cons, List.map_nil,
        List.append_assoc, List.singleton_append, List.map_append]
        at hkeys hsegments
      simp only [SortedIndex.insert, hposition, Option.map_some, Lists,
        List.map_append, List.map_cons]
      refine ⟨hkeys, ?_⟩
      simpa using toList_setIfInBounds hsegments segment

theorem Lists.getD_segments {index : SortedIndex}
    {before after : List Leader} {leader : Leader}
    (h : index.Lists (before ++ leader :: after)) :
    index.segments.getD before.length 0 = leader.2 := by
  rw [Array.getD_eq_getD_getElem?, ← Array.getElem?_toList, h.2,
    List.map_append, List.getElem?_append_right (by simp)]
  simp

theorem Lists.predecessor_eq {index : SortedIndex} {leaders : List Leader}
    (h : index.Lists leaders) (hleaders : Ascending Prod.fst leaders)
    (key : Key) :
    index.predecessor key = floorSegment key leaders 0 := by
  obtain ⟨before, found, after, hparted, hlength, hposition⟩ :=
    h.exists_parted hleaders key
  rw [hparted.floorSegment_eq]
  have heq := hparted.eq_append
  subst heq
  cases found with
  | some segment =>
      simp only [Option.toList_some, List.map_cons, List.map_nil,
        List.append_assoc, List.singleton_append] at h
      simp only [predecessor, hposition, Option.map_some, ← hlength,
        h.getD_segments, Option.getD_some]
  | none =>
      simp only [Option.toList_none, List.map_nil, List.append_nil] at h
      simp only [predecessor, hposition, Option.map_none, ← hlength,
        Option.getD_none]
      rcases List.eq_nil_or_concat' before with rfl | ⟨init, last, rfl⟩
      · rfl
      · rw [List.append_assoc, List.singleton_append] at h
        simp only [List.length_append, List.length_singleton,
          List.getLast?_append, List.getLast?_singleton, Option.some_or,
          Option.map_some, Option.getD_some]
        exact h.getD_segments

theorem Lists.exists_insert {index : SortedIndex} {leaders : List Leader}
    (h : index.Lists leaders) (hleaders : Ascending Prod.fst leaders) (key : Key)
    (segment : Nat) :
    ∃ inserted, (index.insert key segment).Lists inserted ∧
      Ascending Prod.fst inserted ∧ ∀ leader, leader ∈ inserted ↔
        leader = (key, segment) ∨ leader.1 ≠ key ∧ leader ∈ leaders := by
  obtain ⟨before, found, after, hparted, hlength, hposition⟩ :=
    h.exists_parted hleaders key
  refine ⟨before ++ (key, segment) :: after,
    h.insert hparted hlength hposition segment,
    hparted.ascending_place hleaders segment hparted.below hparted.above, ?_⟩
  intro leader
  rw [hparted.mem_iff]
  simp only [List.mem_append, List.mem_cons]
  tauto

theorem Lists.exists_removeAny {index : SortedIndex} {leaders : List Leader}
    (h : index.Lists leaders) (hleaders : Ascending Prod.fst leaders)
    (key : Key) :
    (∃ removed, (index.removeAny key).2.Lists removed ∧
      Ascending Prod.fst removed ∧
      ∀ leader, leader ∈ removed ↔ leader.1 ≠ key ∧ leader ∈ leaders) ∧
      ∀ segment, (index.removeAny key).1 = some segment ↔
        (key, segment) ∈ leaders := by
  obtain ⟨before, found, after, hparted, hlength, hposition⟩ :=
    h.exists_parted hleaders key
  have hfound := hparted.found_eq_some_iff
  have hrest := hparted.ascending_append hleaders
  have heq := hparted.eq_append
  rw [← hlength] at hposition
  cases found with
  | none =>
      simp only [Option.toList_none, List.map_nil, List.append_nil] at heq
      simp only [removeAny, hposition, Option.map_none]
      exact ⟨⟨before ++ after, heq ▸ h, hrest,
        fun leader => (hparted.mem_iff leader).symm⟩, hfound⟩
  | some segment =>
      have hlists : index.Lists (before ++ (key, segment) :: after) := by
        simpa [heq] using h
      have hsegment : index.segments[before.length]? = some segment := by
        rw [← Array.getElem?_toList, hlists.2, List.map_append,
          List.getElem?_append_right (by simp)]
        simp
      simp only [removeAny, hposition, Option.map_some, hsegment]
      exact ⟨⟨before ++ after, hlists.eraseAt, hrest,
        fun leader => (hparted.mem_iff leader).symm⟩, hfound⟩

theorem Lists.fits_iff {index : SortedIndex} {before after : List Leader}
    {leader : Leader} (h : index.Lists (before ++ leader :: after))
    (hleaders : Ascending Prod.fst (before ++ leader :: after)) (key : Key) :
    index.fits before.length key = true ↔
      (∀ other ∈ before, other.1 < key) ∧ ∀ other ∈ after, key < other.1 := by
  obtain ⟨hbefore, hafter, -, -⟩ := (ascending_append_cons_iff _ _ _).mp hleaders
  have hsize : index.keys.size = before.length + 1 + after.length := by
    rw [h.size_keys]
    simp
    omega
  rw [fits, Bool.and_eq_true, Bool.or_eq_true, Bool.or_eq_true,
    decide_eq_true_eq, decide_eq_true_eq, beq_iff_eq, beq_iff_eq, hsize]
  refine and_congr ?_ ?_
  · rcases List.eq_nil_or_concat' before with rfl | ⟨init, last, rfl⟩
    · simp
    · have hlast : index.keys.getD ((init ++ [last]).length - 1) 0 = last.1 := by
        rw [h.getD_keys (by simp)]
        simp
      rw [hlast, hbefore.forall_lt_concat_iff]
      exact or_iff_right (by simp)
  · cases after with
    | nil => simp
    | cons next rest =>
        have hnext : index.keys.getD (before.length + 1) 0 = next.1 := by
          rw [h.getD_keys (by simp)]
          simp
        rw [hnext, hafter.lt_forall_cons_iff]
        exact or_iff_right (by simp)

theorem Lists.exists_update {index : SortedIndex} {leaders : List Leader}
    (h : index.Lists leaders) (hleaders : Ascending Prod.fst leaders) {old : Key}
    {segment : Nat} (hmem : (old, segment) ∈ leaders) (new : Key) :
    ∃ updated, (index.update old new).Lists updated ∧
      Ascending Prod.fst updated ∧
      ∀ leader, leader ∈ updated ↔ leader = (new, segment) ∨
        leader.1 ≠ new ∧ leader.1 ≠ old ∧ leader ∈ leaders := by
  obtain ⟨before, found, after, hparted, hlength, hposition⟩ :=
    h.exists_parted hleaders old
  have hfound := (hparted.found_eq_some_iff segment).mpr hmem
  subst hfound
  have hrest := hparted.ascending_append hleaders
  have heq : leaders = before ++ (old, segment) :: after := by
    simpa using hparted.eq_append
  rw [heq] at h
  rw [Option.map_some, ← hlength] at hposition
  simp only [update, hposition, h.getD_segments, hparted.mem_iff]
  split
  · -- The new key fits where the old one stands.
    rename_i hfits
    obtain ⟨hbelow, habove⟩ := (h.fits_iff (heq ▸ hleaders) new).mp hfits
    refine ⟨before ++ (new, segment) :: after, ⟨?_, ?_⟩,
      hparted.ascending_place hleaders segment hbelow habove, ?_⟩
    · have hkeys := h.1
      rw [List.map_append, List.map_cons] at hkeys
      simpa using toList_setIfInBounds hkeys new
    · simpa using h.2
    · intro leader
      simp only [List.mem_append, List.mem_cons]
      grind
  · -- The leader goes out, and what stands at the new key gives way to it.
    have herase := h.eraseAt
    obtain ⟨left, other, right, hparted', hlength', hposition'⟩ :=
      herase.exists_parted hrest new
    refine ⟨left ++ (new, segment) :: right,
      herase.insert hparted' hlength' hposition' segment,
      hparted'.ascending_place hrest segment hparted'.below hparted'.above, ?_⟩
    intro leader
    rw [hparted'.mem_iff]
    simp only [List.mem_append, List.mem_cons]
    tauto

theorem update_of_absent {index : SortedIndex} {leaders : List Leader}
    (h : index.Lists leaders) (hleaders : Ascending Prod.fst leaders) {old : Key}
    (habsent : ∀ segment, (old, segment) ∉ leaders) (new : Key) :
    index.update old new = index := by
  obtain ⟨before, found, after, hparted, hlength, hposition⟩ :=
    h.exists_parted hleaders old
  cases found with
  | none => simp only [update, hposition, Option.map_none]
  | some segment =>
      exact absurd ((hparted.found_eq_some_iff segment).mp rfl)
        (habsent segment)

end SortedIndex

instance : LawfulIndex SortedIndex where
  Valid index := index.Lists index.entries ∧ Ascending Prod.fst index.entries
  ascending h := h.2
  predecessor_eq h key := h.1.predecessor_eq h.2 key
  valid_empty := ⟨⟨rfl, rfl⟩, List.Pairwise.nil⟩
  entries_empty := rfl
  valid_clear _ := ⟨⟨rfl, rfl⟩, List.Pairwise.nil⟩
  entries_clear _ := rfl
  valid_insert h key segment := by
    obtain ⟨inserted, hlists, hascending, -⟩ := h.1.exists_insert h.2 key segment
    exact hlists.valid hascending
  mem_insert h key segment leader := by
    obtain ⟨inserted, hlists, -, hmem⟩ := h.1.exists_insert h.2 key segment
    rw [← hlists.entries_eq] at hmem
    exact hmem leader
  valid_removeAny h key := by
    obtain ⟨⟨removed, hlists, hascending, -⟩, -⟩ := h.1.exists_removeAny h.2 key
    exact hlists.valid hascending
  mem_removeAny h key leader := by
    obtain ⟨⟨removed, hlists, -, hmem⟩, -⟩ := h.1.exists_removeAny h.2 key
    rw [← hlists.entries_eq] at hmem
    exact hmem leader
  removeAny_eq_some_iff h key segment :=
    (h.1.exists_removeAny h.2 key).2 segment
  valid_update {index} h old new := by
    by_cases hmem : ∃ segment, (old, segment) ∈ index.entries
    · obtain ⟨segment, hmem⟩ := hmem
      obtain ⟨updated, hlists, hascending, -⟩ := h.1.exists_update h.2 hmem new
      exact hlists.valid hascending
    · have hupdate :=
        SortedIndex.update_of_absent h.1 h.2 (not_exists.mp hmem) new
      simp only [OrderIndex.update, hupdate]
      exact h
  mem_update h _ _ hmem new leader := by
    obtain ⟨updated, hlists, -, hupdated⟩ := h.1.exists_update h.2 hmem new
    rw [← hlists.entries_eq] at hupdated
    exact hupdated leader
  entries_update_of_absent h _ habsent new := by
    have hupdate := SortedIndex.update_of_absent h.1 h.2 habsent new
    simp only [OrderIndex.update, hupdate]

end PackedMemory
