import PackedMemory.Proofs.Ascending
import PackedMemory.Proofs.Insertion

/-!
# Entries of a segment

What a search in a segment finds, and how insertion and removal change the list
of its entries.  Only a search relies on the order of the keys.
-/

namespace PackedMemory

namespace Segment

theorem mem_entries_of_getElem? {segment : Segment} {offset : Nat}
    {entry : Entry} (h : segment[offset]? = some (some entry)) :
    entry ∈ segment.entries :=
  List.mem_filterMap.mpr ⟨some entry, List.mem_of_getElem? h, rfl⟩

theorem find?_eq_bind (key : Key) (segment : Segment) :
    segment.find? key = (segment.position? key).bind fun offset =>
      (segment.getD offset none).map Entry.value := by
  simp only [find?, Option.map_eq_bind]
  rfl

theorem position?_eq_none_iff {key : Key} {segment : Segment}
    (h : Ascending Entry.key segment.entries) :
    segment.position? key = none ↔
      ∀ entry ∈ segment.entries, entry.key ≠ key := by
  induction segment with
  | nil => simp [position?]
  | cons slot rest ih =>
      cases slot with
      | none => simpa [position?] using ih h
      | some entry =>
          rw [entries_some] at h ⊢
          obtain ⟨hentry, hrest⟩ := List.pairwise_cons.mp h
          rw [position?]
          split
          · rename_i hkey
            simp [hkey]
          · rename_i hkey
            split
            · rename_i hlt
              refine iff_of_true rfl ?_
              intro other hother
              rcases List.mem_cons.mp hother with rfl | hother
              · exact hkey
              · have hgreater := Int64.lt_trans hlt (hentry other hother)
                grind
            · rw [Option.map_eq_none_iff, ih hrest]
              simp [hkey]

theorem find?_eq_some_iff {key : Key} {value : Value} {segment : Segment}
    (h : Ascending Entry.key segment.entries) :
    segment.find? key = some value ↔ ⟨key, value⟩ ∈ segment.entries := by
  cases hposition : segment.position? key with
  | none =>
      have habsent := (position?_eq_none_iff h).mp hposition
      refine iff_of_false (by simp [find?, hposition]) ?_
      intro hmem
      exact habsent _ hmem rfl
  | some offset =>
      obtain ⟨entry, hentry, hkey⟩ := getElem?_of_position? hposition
      have hmem := mem_entries_of_getElem? hentry
      have hfind : segment.find? key = some entry.value := by
        simp [find?, hposition, List.getD_eq_getElem?_getD, hentry]
      rw [hfind, Option.some.injEq]
      constructor
      · rintro rfl
        rw [← hkey]
        exact hmem
      · intro hvalue
        rw [h.eq_of_key_eq hmem hvalue hkey]

theorem inserts_set_none {segment : Segment} {offset : Nat} {entry : Entry}
    (h : segment[offset]? = some (some entry)) :
    Inserts entry (entries (segment.set offset none)) segment.entries := by
  obtain ⟨hoffset, helement⟩ := List.getElem?_eq_some_iff.mp h
  refine ⟨entries (segment.take offset), entries (segment.drop (offset + 1)),
    ?_, ?_⟩
  · rw [List.set_eq_take_append_cons_drop, if_pos hoffset, entries_append,
      entries_none]
  · rw [← entries_some, ← helement, ← List.drop_eq_getElem_cons hoffset,
      ← entries_append, List.take_append_drop]

theorem inserts_insert (entry : Entry) (segment : Segment) :
    Inserts entry segment.entries (segment.insert entry).entries :=
  ⟨_, _, List.takeWhile_append_dropWhile.symm, entries_insert entry segment⟩

/-- The entries before the first larger key precede it, the others follow. -/
theorem ascending_insert {entry : Entry} {segment : Segment}
    (h : Ascending Entry.key segment.entries)
    (habsent : ∀ other ∈ segment.entries, other.key ≠ entry.key) :
    Ascending Entry.key (segment.insert entry).entries := by
  rw [entries_insert]
  have hsplit := List.takeWhile_append_dropWhile
    (p := fun other : Entry => decide (other.key ≤ entry.key))
    (l := segment.entries)
  obtain ⟨hbefore, hafter, -⟩ := List.pairwise_append.mp (hsplit ▸ h)
  refine (ascending_append_cons_iff _ _ _).mpr ⟨hbefore, hafter, ?_, ?_⟩
  · intro other hother
    have hle := List.mem_takeWhile_imp hother
    simp only [decide_eq_true_eq] at hle
    have hne := habsent other ((List.takeWhile_sublist _).mem hother)
    grind
  · cases hdrop : segment.entries.dropWhile
        (fun other => decide (other.key ≤ entry.key)) with
    | nil => simp
    | cons first rest =>
        have hfirst : ¬first.key ≤ entry.key := by
          have hhead := List.head?_dropWhile_not
            (fun other : Entry => decide (other.key ≤ entry.key))
            segment.entries
          simpa [hdrop] using hhead
        rw [hdrop] at hafter
        intro other hother
        rcases List.mem_cons.mp hother with rfl | hother
        · exact Int64.not_le.mp hfirst
        · exact Int64.lt_trans (Int64.not_le.mp hfirst)
            ((List.pairwise_cons.mp hafter).1 other hother)

theorem entries_insert_of_leads {entry : Entry} {segment : Segment}
    (h : segment.leads entry.key = true) :
    (segment.insert entry).entries = entry :: segment.entries := by
  rw [entries_insert]
  cases hentries : segment.entries with
  | nil => rfl
  | cons first rest =>
      have hfirst := (leads_iff _ _).mp h first (by simp [hentries])
      have hle := Int64.not_le.mpr hfirst
      rw [List.takeWhile_cons_of_neg (by simpa using hle),
        List.dropWhile_cons_of_neg (by simpa using hle), List.nil_append]

theorem head?_insert_of_not_leads {entry : Entry} {segment : Segment}
    (h : segment.leads entry.key = false) :
    (segment.insert entry).entries.head? = segment.entries.head? := by
  rw [Bool.eq_false_iff, ne_eq, leads_iff] at h
  rw [entries_insert]
  cases hentries : segment.entries with
  | nil => simp [hentries] at h
  | cons first rest =>
      have hle : first.key ≤ entry.key := by
        simpa [hentries, Int64.not_lt] using h
      rw [List.takeWhile_cons_of_pos (by simpa using hle), List.cons_append,
        List.head?_cons, List.head?_cons]

theorem mem_entries_of_getD {segment : Segment} {offset : Nat} {entry : Entry}
    (h : segment.getD offset none = some entry) : entry ∈ segment.entries := by
  rw [List.getD_eq_getElem?_getD] at h
  cases hget : segment[offset]? with
  | none =>
      rw [hget] at h
      contradiction
  | some slot =>
      rw [hget] at h
      exact List.mem_filterMap.mpr ⟨slot, List.mem_of_getElem? hget, h⟩

theorem length_entries_le (segment : Segment) :
    segment.entries.length ≤ segment.length :=
  List.length_filterMap_le _ _

theorem none_mem_of_length_lt {segment : Segment}
    (h : segment.entries.length < segment.length) : none ∈ segment := by
  induction segment with
  | nil => simp at h
  | cons slot rest ih =>
      cases slot with
      | none => exact List.mem_cons_self
      | some entry =>
          simp only [entries_some, List.length_cons] at h
          exact List.mem_cons_of_mem _ (ih (by omega))

end Segment

end PackedMemory
