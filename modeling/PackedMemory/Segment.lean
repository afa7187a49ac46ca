import PackedMemory.Slot

/-!
# Segments

A segment is a run of slots.  Its entries stand in ascending order of their keys
with gaps anywhere between them.
-/

namespace PackedMemory

abbrev Segment := List Slot

namespace Segment

def blank (capacity : Nat) : Segment := List.replicate capacity none

def entries (segment : Segment) : List Entry := segment.filterMap id

def minimum? (segment : Segment) : Option Key :=
  segment.entries.head?.map Entry.key

/-- The offset of `key`; a larger key ends the search. -/
def position? (key : Key) : Segment → Option Nat
  | [] => none
  | none :: rest => (position? key rest).map (· + 1)
  | some entry :: rest =>
      if entry.key = key then some 0
      else if key < entry.key then none
      else (position? key rest).map (· + 1)

def find? (key : Key) (segment : Segment) : Option Value := do
  let offset ← segment.position? key
  let entry ← segment.getD offset none
  return entry.value

@[simp] theorem entries_nil : entries [] = [] := rfl

@[simp] theorem entries_none (segment : Segment) :
    entries (none :: segment) = segment.entries := rfl

@[simp] theorem entries_some (entry : Entry) (segment : Segment) :
    entries (some entry :: segment) = entry :: segment.entries := rfl

@[simp] theorem entries_append (left right : Segment) :
    entries (left ++ right) = left.entries ++ right.entries := by
  simp [entries]

@[simp] theorem entries_blank (capacity : Nat) :
    (blank capacity).entries = [] := by
  simp [blank, entries]

@[simp] theorem length_blank (capacity : Nat) :
    (blank capacity).length = capacity := by
  simp [blank]

theorem getElem?_of_position? {key : Key} {segment : Segment} {offset : Nat}
    (h : segment.position? key = some offset) :
    ∃ entry, segment[offset]? = some (some entry) ∧ entry.key = key := by
  induction segment generalizing offset with
  | nil => simp [position?] at h
  | cons slot rest ih =>
      cases slot with
      | none =>
          simp only [position?, Option.map_eq_some_iff] at h
          obtain ⟨position, hposition, rfl⟩ := h
          simpa using ih hposition
      | some entry =>
          simp only [position?] at h
          split at h
          · rename_i hkey
            cases h
            exact ⟨entry, by simp, hkey⟩
          · split at h
            · simp at h
            · simp only [Option.map_eq_some_iff] at h
              obtain ⟨position, hposition, rfl⟩ := h
              simpa using ih hposition

/-! ## Insertion -/

/-- What a scan for a key has met so far: a gap, and a larger key. -/
structure Sighting where
  gap : Option Nat
  larger : Option Nat
deriving DecidableEq, Repr

namespace Sighting

def note (key : Key) (offset : Nat) (seen : Sighting) : Slot → Sighting
  | none => { seen with gap := seen.gap.or (some offset) }
  | some entry =>
      if key < entry.key then
        { seen with larger := seen.larger.or (some offset) }
      else
        seen

def isComplete (seen : Sighting) : Bool :=
  seen.gap.isSome && seen.larger.isSome

end Sighting

/-- Looks at the slots in turn until a gap and a larger key are found. -/
def scan (key : Key) (offset : Nat) (seen : Sighting) : Segment → Sighting
  | [] => seen
  | slot :: rest =>
      let next := seen.note key offset slot
      if next.isComplete then next else scan key (offset + 1) next rest

def copyWithin (segment : Segment) (start stop target : Nat) : Segment :=
  let run := (segment.take stop).drop start
  segment.take target ++ run ++ segment.drop (target + run.length)

/--
Moves the slots between a gap and the first larger key into the gap, and gives
the slot that becomes free for an entry.
-/
def makeWay (segment : Segment) (gap : Nat) : Option Nat → Nat × Segment
  | none =>
      (segment.length - 1, segment.copyWithin (gap + 1) segment.length gap)
  | some larger =>
      if gap < larger then
        (larger - 1, segment.copyWithin (gap + 1) larger gap)
      else
        (larger, segment.copyWithin larger gap (larger + 1))

def insert? (entry : Entry) (segment : Segment) : Option (Bool × Segment) := do
  let seen := scan entry.key 0 ⟨none, none⟩ segment
  let gap ← seen.gap
  let (place, moved) := segment.makeWay gap seen.larger
  let filled := moved.set place (some entry)
  return ((filled.take place).all Option.isNone, filled)

/-! ## Even layout -/

/--
Entries followed by gaps.  Entry number `index` of `count` stands at offset
`index * capacity / count`, so the gaps after it reach to the next such offset.
-/
def spaced (capacity count : Nat) : Nat → List Entry → Segment
  | _, [] => []
  | index, entry :: rest =>
      let offset := index * capacity / count
      let next := (index + 1) * capacity / count
      some entry :: List.replicate (next - offset - 1) none ++
        spaced capacity count (index + 1) rest

def layOut (capacity : Nat) (entries : List Entry) : Segment :=
  if entries.isEmpty then
    blank capacity
  else
    spaced capacity entries.length 0 entries

theorem entries_spaced (capacity count index : Nat) (list : List Entry) :
    (spaced capacity count index list).entries = list := by
  induction list generalizing index with
  | nil => rfl
  | cons entry rest ih =>
      have hgaps (gaps : Nat) : entries (List.replicate gaps none) = [] :=
        entries_blank gaps
      simp [spaced, hgaps, ih]

@[simp] theorem entries_layOut (capacity : Nat) (list : List Entry) :
    (layOut capacity list).entries = list := by
  unfold layOut
  split
  · simp_all
  · exact entries_spaced capacity list.length 0 list

/-- What is left of the segment behind an offset is filled exactly. -/
theorem length_spaced {capacity count index : Nat} {list : List Entry}
    (hcapacity : count ≤ capacity) (hcount : 0 < count)
    (h : index + list.length = count) :
    index * capacity / count + (spaced capacity count index list).length =
      capacity := by
  induction list generalizing index with
  | nil =>
      simp only [List.length_nil, Nat.add_zero] at h
      subst h
      simp [spaced, Nat.mul_div_cancel_left _ hcount]
  | cons entry rest ih =>
      simp only [List.length_cons] at h
      have hnext : index + 1 + rest.length = count := by omega
      have hrest := ih hnext
      have hstep :
          index * capacity / count + 1 ≤ (index + 1) * capacity / count := by
        rw [Nat.add_mul, Nat.one_mul, ← Nat.add_div_right _ hcount]
        exact Nat.div_le_div_right (Nat.add_le_add_left hcapacity _)
      simp only [spaced, List.cons_append, List.length_cons, List.length_append,
        List.length_replicate]
      omega

theorem length_layOut {capacity : Nat} {list : List Entry}
    (h : list.length ≤ capacity) : (layOut capacity list).length = capacity := by
  unfold layOut
  cases list with
  | nil => simp [blank]
  | cons entry rest =>
      have hlength := length_spaced h (Nat.succ_pos rest.length)
        (Nat.zero_add _)
      simpa using hlength

end Segment

end PackedMemory
