import PackedMemory.Config
import PackedMemory.CountTree
import PackedMemory.Index.Basic
import PackedMemory.Segment
import PackedMemory.Window

/-!
# Slot storage

Slots in segments of equal capacity, with a tree of counters over the segments.
The number of slots is a power of two, and a segment has about as many slots as
that number has binary digits, rounded up to a power of two.

A step on a storage gives its result together with the storage it leaves, also
when the result is a fault.
-/

namespace PackedMemory

structure Storage where
  segmentCapacity : Nat
  segments : Array Segment
  counts : CountTree
deriving DecidableEq, Repr

def segmentCapacityFor (capacity : Nat) : Nat :=
  nextPowerOfTwo (Nat.log2 capacity)

def isUsableCapacity (capacity : Nat) : Bool :=
  leastCapacity ≤ capacity && isPowerOfTwo capacity

namespace Storage

def blank (capacity : Nat) : Storage :=
  let segmentCapacity := segmentCapacityFor capacity
  let segmentCount := capacity / segmentCapacity
  { segmentCapacity
    segments := Array.replicate segmentCount (Segment.blank segmentCapacity)
    counts := .empty (Nat.log2 segmentCount) }

def allocate (grants : Nat → Bool) (capacity : Nat) : Except Fault Storage :=
  if !isUsableCapacity capacity then
    .error (.misuse (.unusableCapacity capacity))
  else if grants capacity then
    .ok (blank capacity)
  else
    .error (.allocationFailure capacity)

/-- A blank storage whose memory is taken for granted. -/
def ofCapacity (capacity : Nat) : Except Fault Storage :=
  if isUsableCapacity capacity && addressable capacity then
    .ok (blank capacity)
  else
    .error (.misuse (.unusableCapacity capacity))

def segmentCount (storage : Storage) : Nat := storage.segments.size

def capacity (storage : Storage) : Nat :=
  storage.segmentCount * storage.segmentCapacity

def total (storage : Storage) : Nat := storage.counts.total

def height (storage : Storage) : Nat := storage.counts.height

def slots (storage : Storage) : List Slot := storage.segments.toList.flatten

def entries (storage : Storage) : List Entry :=
  storage.segments.toList.flatMap Segment.entries

/-- The slot at a position among all slots; what lies beyond them is a gap. -/
def slotAt (storage : Storage) (position : Nat) : Slot :=
  let segment :=
    storage.segments.getD (position / storage.segmentCapacity) []
  segment.getD (position % storage.segmentCapacity) none

def outOfRange (storage : Storage) (segment : Nat) : Fault :=
  .outOfRange segment storage.segmentCount

def segment (storage : Storage) (number : Nat) : Except Fault Segment :=
  match storage.segments[number]? with
  | some segment => .ok segment
  | none => .error (storage.outOfRange number)

def count (storage : Storage) (segment : Nat) : Except Fault Nat :=
  if segment < storage.segmentCount then
    .ok (storage.counts.leaf segment)
  else
    .error (storage.outOfRange segment)

def isFull (storage : Storage) (segment : Nat) : Bool :=
  segment < storage.segmentCount &&
    storage.counts.leaf segment == storage.segmentCapacity

def minimum (storage : Storage) (segment : Nat) : Except Fault Key := do
  let slots ← storage.segment segment
  let count := storage.counts.leaf segment
  if count = 0 then
    .error (.emptySegment segment)
  else
    match slots.minimum? with
    | some key => .ok key
    | none => .error (.corrupted (.missingMinimum segment count))

def position? (storage : Storage) (segment : Nat) (key : Key) :
    Except Fault (Option Nat) := do
  let slots ← storage.segment segment
  return slots.position? key

def elements (storage : Storage) (window : Window) : Except Fault Nat :=
  if window.start + window.length ≤ storage.segmentCount then
    .ok (storage.counts.elements window.start window.length)
  else
    .error (.misuse
      (.windowOutside window.start window.length storage.segmentCount))

def density (ρ : Type) [Quantity ρ] (storage : Storage) (window : Window) :
    Except Fault ρ := do
  let elements ← storage.elements window
  return Quantity.ratio elements (window.length * storage.segmentCapacity)

/-- The least key of a segment, or nothing when the segment counts no elements. -/
def leader? (storage : Storage) (segment : Nat) : Except Fault (Option Key) := do
  let count ← storage.count segment
  if count = 0 then
    return none
  else
    let key ← storage.minimum segment
    return some key

def leaders (storage : Storage) : List Nat → Except Fault (List Leader)
  | [] => .ok []
  | segment :: rest => do
      let leader ← storage.leader? segment
      let others ← storage.leaders rest
      match leader with
      | some key => return (key, segment) :: others
      | none => return others

def counterBytes : Nat := 8

/-- Bytes of the slots, and of two counters for each segment. -/
def memory (storage : Storage) : Nat :=
  slotBytes * storage.capacity + counterBytes * (2 * storage.segmentCount)

/-! ## Single entries -/

def insert (storage : Storage) (number : Nat) (entry : Entry) :
    Except Fault Bool × Storage :=
  match storage.segments[number]? with
  | none => (.error (storage.outOfRange number), storage)
  | some segment =>
      if storage.isFull number then
        (.error (.segmentFull number), storage)
      else
        match segment.insert? entry with
        | none => (.error (.segmentFull number), storage)
        | some (leads, filled) =>
            (.ok leads,
              { storage with
                segments := storage.segments.setIfInBounds number filled
                counts := storage.counts.increment number })

def removeAt (storage : Storage) (number offset : Nat) :
    Except Fault Slot × Storage :=
  match storage.segments[number]? with
  | none => (.error (storage.outOfRange number), storage)
  | some segment =>
      if storage.segmentCapacity ≤ offset then
        (.error (storage.outOfRange number), storage)
      else
        match segment.getD offset none with
        | none => (.ok none, storage)
        | some entry =>
            (.ok (some entry),
              { storage with
                segments :=
                  storage.segments.setIfInBounds number (segment.set offset none)
                counts := storage.counts.decrement number })

theorem segmentCount_insert (storage : Storage) (number : Nat) (entry : Entry) :
    (storage.insert number entry).2.segmentCount = storage.segmentCount := by
  unfold insert segmentCount
  split
  · rfl
  · split
    · rfl
    · split <;> simp

theorem segmentCount_removeAt (storage : Storage) (number offset : Nat) :
    (storage.removeAt number offset).2.segmentCount = storage.segmentCount := by
  unfold removeAt segmentCount
  split
  · rfl
  · split
    · rfl
    · split <;> simp

end Storage

end PackedMemory
