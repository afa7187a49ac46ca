import PackedMemory.Cursor
import PackedMemory.PackedArray.Basic

/-!
# Ranges

The keys of a closed interval stand in a run of slots.  Such a run is read from
both ends by a cursor, or summed up in one pass.
-/

namespace PackedMemory

structure Totals where
  firstKey : Key
  lastKey : Key
  count : Nat
  keySum : Int64
  valueSum : Int64
deriving DecidableEq, Repr

namespace Storage

def seekWithin (storage : Storage) (passes : Slot → Bool) : Nat → Nat → Nat
  | 0, position => position
  | count + 1, position =>
      if passes (storage.slotAt position) then
        storage.seekWithin passes count (position + 1)
      else
        position

def seek (storage : Storage) (passes : Slot → Bool) (position : Nat) : Nat :=
  storage.seekWithin passes (storage.capacity - position) position

end Storage

namespace Totals

def zero : Totals := ⟨0, 0, 0, 0, 0⟩

def ofEntry (entry : Entry) : Totals :=
  ⟨entry.key, entry.key, 1, entry.key, entry.value⟩

def add (totals : Totals) (entry : Entry) : Totals where
  firstKey := totals.firstKey
  lastKey := entry.key
  count := totals.count + 1
  keySum := totals.keySum + entry.key
  valueSum := totals.valueSum + entry.value

def ofEntries : List Entry → Totals
  | [] => zero
  | entry :: rest => rest.foldl add (ofEntry entry)

end Totals

namespace PackedArray

variable {ρ ι : Type} [Quantity ρ] [OrderIndex ι]

/--
The run of slots that holds exactly the keys from `least` to `greatest`.  Each
end is sought from the segment that the index names for it.
-/
def interval (array : PackedArray ρ ι) (least greatest : Key) : Nat × Nat :=
  if greatest < least || array.isEmpty then
    (0, 0)
  else
    let storage := array.storage
    let origin (key : Key) := array.predecessor key * storage.segmentCapacity
    let start := storage.seek
      (fun slot => slot.all fun entry => entry.key < least) (origin least)
    let stop := storage.seek
      (fun slot => slot.all fun entry => entry.key ≤ greatest)
      (max (origin greatest) start)
    (start, stop)

def cursor (array : PackedArray ρ ι) : Cursor :=
  ⟨array.storage, 0, array.capacity⟩

def range (array : PackedArray ρ ι) (least greatest : Key) :
    Except Fault Cursor :=
  let (start, stop) := array.interval least greatest
  if stop ≤ array.capacity then
    .ok ⟨array.storage, start, stop⟩
  else
    .error (.misuse (.slotsOutside start stop array.capacity))

def rangeTotals (array : PackedArray ρ ι) (least greatest : Key) :
    Except Fault Totals := do
  let cursor ← array.range least greatest
  return .ofEntries cursor.entries

end PackedArray

end PackedMemory
