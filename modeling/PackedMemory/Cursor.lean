import PackedMemory.Storage.Basic

/-!
# Cursors

A cursor reads the entries of a run of slots from both ends.  Each end stops
behind the entry that it has read, so no slot is read twice.
-/

namespace PackedMemory

namespace Storage

def readForward (storage : Storage) : Nat → Nat → Option Entry × Nat
  | 0, position => (none, position)
  | count + 1, position =>
      match storage.slotAt position with
      | some entry => (some entry, position + 1)
      | none => storage.readForward count (position + 1)

/-- The last entry in up to `count` slots before `position`, and its position. -/
def readBackward (storage : Storage) : Nat → Nat → Option Entry × Nat
  | 0, position => (none, position)
  | count + 1, position =>
      match storage.slotAt (position - 1) with
      | some entry => (some entry, position - 1)
      | none => storage.readBackward count (position - 1)

def entriesIn (storage : Storage) (position count : Nat) : List Entry :=
  (List.range' position count).filterMap storage.slotAt

theorem entriesIn_succ (storage : Storage) (position count : Nat) :
    storage.entriesIn position (count + 1) =
      (storage.slotAt position).toList ++
        storage.entriesIn (position + 1) count := by
  unfold entriesIn
  rw [List.range'_succ, List.filterMap_cons]
  cases storage.slotAt position <;> simp

theorem entriesIn_succ_last (storage : Storage) (position count : Nat) :
    storage.entriesIn position (count + 1) =
      storage.entriesIn position count ++
        (storage.slotAt (position + count)).toList := by
  have hsplit : List.range' position (count + 1) =
      List.range' position count ++ [position + count] := by
    simp [List.range'_concat]
  unfold entriesIn
  rw [hsplit, List.filterMap_append]
  cases h : storage.slotAt (position + count) <;> simp [h]

theorem readForward_some {storage : Storage} {count position stop : Nat}
    {entry : Entry}
    (h : storage.readForward count position = (some entry, stop)) :
    position < stop ∧ stop ≤ position + count ∧
      storage.entriesIn position count =
        entry :: storage.entriesIn stop (position + count - stop) := by
  induction count generalizing position with
  | zero => simp [readForward] at h
  | succ count ih =>
      rw [readForward] at h
      rw [entriesIn_succ]
      split at h
      · rename_i found hslot
        cases h
        have hcount : position + (count + 1) - (position + 1) = count := by
          omega
        refine ⟨by omega, by omega, ?_⟩
        rw [hslot, hcount]
        rfl
      · rename_i hslot
        obtain ⟨hstart, hstop, hentries⟩ := ih h
        have hcount : position + (count + 1) = position + 1 + count := by omega
        refine ⟨by omega, by omega, ?_⟩
        rw [hslot, hentries, hcount]
        rfl

theorem readForward_none {storage : Storage} {count position stop : Nat}
    (h : storage.readForward count position = (none, stop)) :
    stop = position + count ∧ storage.entriesIn position count = [] := by
  induction count generalizing position with
  | zero =>
      cases h
      exact ⟨rfl, rfl⟩
  | succ count ih =>
      rw [readForward] at h
      rw [entriesIn_succ]
      split at h
      · cases h
      · rename_i hslot
        obtain ⟨hstop, hentries⟩ := ih h
        refine ⟨by omega, ?_⟩
        rw [hslot, hentries]
        rfl

theorem readBackward_some {storage : Storage} {count start stop : Nat}
    {entry : Entry}
    (h : storage.readBackward count (start + count) = (some entry, stop)) :
    start ≤ stop ∧ stop < start + count ∧
      storage.entriesIn start count =
        storage.entriesIn start (stop - start) ++ [entry] := by
  induction count with
  | zero => simp [readBackward] at h
  | succ count ih =>
      have hlast : start + (count + 1) - 1 = start + count := by omega
      rw [readBackward, hlast] at h
      rw [entriesIn_succ_last]
      split at h
      · rename_i found hslot
        cases h
        have hcount : start + count - start = count := by omega
        refine ⟨by omega, by omega, ?_⟩
        rw [hslot, hcount]
        rfl
      · rename_i hslot
        obtain ⟨hstart, hstop, hentries⟩ := ih h
        refine ⟨hstart, by omega, ?_⟩
        rw [hslot, hentries]
        simp

theorem readBackward_none {storage : Storage} {count start stop : Nat}
    (h : storage.readBackward count (start + count) = (none, stop)) :
    stop = start ∧ storage.entriesIn start count = [] := by
  induction count with
  | zero =>
      cases h
      exact ⟨rfl, rfl⟩
  | succ count ih =>
      have hlast : start + (count + 1) - 1 = start + count := by omega
      rw [readBackward, hlast] at h
      rw [entriesIn_succ_last]
      split at h
      · cases h
      · rename_i hslot
        obtain ⟨hstop, hentries⟩ := ih h
        refine ⟨hstop, ?_⟩
        rw [hslot, hentries]
        rfl

end Storage

structure Cursor where
  storage : Storage
  front : Nat
  back : Nat
deriving DecidableEq, Repr

namespace Cursor

def remaining (cursor : Cursor) : Nat := cursor.back - cursor.front

def entries (cursor : Cursor) : List Entry :=
  cursor.storage.entriesIn cursor.front cursor.remaining

def next (cursor : Cursor) : Option Entry × Cursor :=
  let (entry, front) :=
    cursor.storage.readForward cursor.remaining cursor.front
  (entry, { cursor with front })

def nextBack (cursor : Cursor) : Option Entry × Cursor :=
  let (entry, back) :=
    cursor.storage.readBackward cursor.remaining cursor.back
  (entry, { cursor with back })

theorem length_entries_le (cursor : Cursor) :
    cursor.entries.length ≤ cursor.remaining := by
  unfold entries Storage.entriesIn
  refine Nat.le_trans (List.length_filterMap_le _ _) ?_
  simp

theorem entries_of_next_some {cursor rest : Cursor} {entry : Entry}
    (h : cursor.next = (some entry, rest)) :
    cursor.entries = entry :: rest.entries := by
  unfold next at h
  generalize hread :
    cursor.storage.readForward cursor.remaining cursor.front = read at h
  obtain ⟨found, front⟩ := read
  cases h
  obtain ⟨hfront, hback, hentries⟩ := Storage.readForward_some hread
  have hcount : cursor.front + cursor.remaining - front =
      cursor.back - front := by
    unfold remaining at hback ⊢
    omega
  rw [hcount] at hentries
  exact hentries

theorem entries_of_next_none {cursor rest : Cursor}
    (h : cursor.next = (none, rest)) :
    cursor.entries = [] ∧ rest.entries = [] := by
  unfold next at h
  generalize hread :
    cursor.storage.readForward cursor.remaining cursor.front = read at h
  obtain ⟨found, front⟩ := read
  cases h
  obtain ⟨hfront, hentries⟩ := Storage.readForward_none hread
  have hcount : cursor.back - front = 0 := by
    unfold remaining at hfront
    omega
  refine ⟨hentries, ?_⟩
  change cursor.storage.entriesIn front (cursor.back - front) = []
  rw [hcount]
  rfl

theorem entries_of_nextBack_some {cursor rest : Cursor} {entry : Entry}
    (h : cursor.nextBack = (some entry, rest)) :
    cursor.entries = rest.entries ++ [entry] := by
  by_cases horder : cursor.front ≤ cursor.back
  · have hback : cursor.back = cursor.front + cursor.remaining := by
      unfold remaining
      omega
    unfold nextBack at h
    rw [hback] at h
    generalize hread : cursor.storage.readBackward cursor.remaining
      (cursor.front + cursor.remaining) = read at h
    obtain ⟨found, back⟩ := read
    cases h
    exact (Storage.readBackward_some hread).2.2
  · have hremaining : cursor.remaining = 0 := by
      unfold remaining
      omega
    simp [nextBack, hremaining, Storage.readBackward] at h

theorem entries_of_nextBack_none {cursor rest : Cursor}
    (h : cursor.nextBack = (none, rest)) :
    cursor.entries = [] ∧ rest.entries = [] := by
  by_cases horder : cursor.front ≤ cursor.back
  · have hback : cursor.back = cursor.front + cursor.remaining := by
      unfold remaining
      omega
    unfold nextBack at h
    rw [hback] at h
    generalize hread : cursor.storage.readBackward cursor.remaining
      (cursor.front + cursor.remaining) = read at h
    obtain ⟨found, back⟩ := read
    cases h
    obtain ⟨hstop, hentries⟩ := Storage.readBackward_none hread
    subst hstop
    refine ⟨hentries, ?_⟩
    simp [entries, remaining, Storage.entriesIn]
  · have hremaining : cursor.remaining = 0 := by
      unfold remaining
      omega
    unfold nextBack at h
    rw [hremaining] at h
    cases h
    simp only [entries, hremaining]
    exact ⟨rfl, rfl⟩

end Cursor

end PackedMemory
