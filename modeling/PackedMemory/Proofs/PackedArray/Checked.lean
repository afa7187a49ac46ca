import PackedMemory.PackedArray.Change
import PackedMemory.PackedArray.Range
import PackedMemory.Proofs.Index.Access
import PackedMemory.Proofs.Storage.Access

/-!
# Checked calls

Lookups, insertion and removal with every access to slots, counters and index
checked, and with the two assertions that are made on the way: a segment has a
gap before an entry goes there, and a window is empty before it is filled.
-/

namespace PackedMemory

open Checked

variable {ρ ι : Type}

namespace Storage

def seekChecked (storage : Storage) (passes : Slot → Bool) :
    Nat → Nat → Checked Nat
  | 0, position => return position
  | count + 1, position => do
      let slot ← readCell storage.row position
      if passes slot then
        storage.seekChecked passes count (position + 1)
      else
        return position

end Storage

namespace PackedArray

def isEmptyChecked (array : PackedArray ρ ι) : Checked Bool := do
  let total ← array.storage.counts.totalChecked
  return total == 0

def isCrammedChecked (array : PackedArray ρ ι) : Checked Bool := do
  let total ← array.storage.counts.totalChecked
  return total == array.capacity

def changeStorage {α : Type}
    (step : Storage → Checked (Except Fault α × Storage)) :
    CheckedUpdate (PackedArray ρ ι) α := fun array => do
  let (result, storage) ← step array.storage
  return ⟨result, { array with storage }, []⟩

def changeIndex (change : ι → Checked ι) :
    CheckedUpdate (PackedArray ρ ι) Unit := fun array => do
  let index ← change array.index
  return ⟨.ok (), { array with index }, []⟩

variable [OrderIndex ι] [LawfulIndex ι] [CheckedIndex ι]

open CheckedIndex CheckedUpdate

def predecessorChecked (array : PackedArray ρ ι) (key : Key) : Checked Nat :=
  CheckedIndex.predecessorChecked array.index key

def findChecked (array : PackedArray ρ ι) (key : Key) :
    Checked (Option Value) := do
  if ← array.isEmptyChecked then
    return none
  else
    let segment ← array.predecessorChecked key
    match ← (array.storage.position?Checked segment key).run with
    | .error _ => return none
    | .ok none => return none
    | .ok (some offset) =>
        match ← (array.storage.segmentChecked segment).run with
        | .error _ => return none
        | .ok slots =>
            let slot ← readCell slots.toArray offset
            return slot.map Entry.value

def endChecked (array : PackedArray ρ ι) (key : Key) (passes : Slot → Bool)
    (least : Nat) : Checked Nat := do
  let segment ← array.predecessorChecked key
  let origin := max (segment * array.storage.segmentCapacity) least
  array.storage.seekChecked passes (array.storage.row.size - origin) origin

def intervalChecked (array : PackedArray ρ ι) (least greatest : Key) :
    Checked (Nat × Nat) := do
  if greatest < least then
    return (0, 0)
  else if ← array.isEmptyChecked then
    return (0, 0)
  else
    let start ← array.endChecked least
      (fun slot => slot.all fun entry => entry.key < least) 0
    let stop ← array.endChecked greatest
      (fun slot => slot.all fun entry => entry.key ≤ greatest) start
    return (start, stop)

def rangeChecked (array : PackedArray ρ ι) (least greatest : Key) :
    Checked Cursor := do
  let (start, stop) ← array.intervalChecked least greatest
  let _ ← readRun array.storage.row start stop
  return ⟨array.storage, start, stop⟩

def rangeTotalsChecked (array : PackedArray ρ ι) (least greatest : Key) :
    Checked Totals := do
  let (start, stop) ← array.intervalChecked least greatest
  let slots ← readRun array.storage.row start stop
  return .ofEntries (slots.filterMap id)

/-! ## Repairs -/

def spreadChecked (window : Window) :
    CheckedUpdate (PackedArray ρ ι) Unit := do
  let leaders ← ask fun array =>
    array.storage.leadersChecked window.segments
  changeIndex fun index => removeAllChecked index (leaders.map Prod.fst)
  let entries ← changeStorage fun storage => storage.drainChecked window
  free (.emit [.spreading window entries.length])
  let filled ← changeStorage fun storage => storage.fillChecked window entries
  changeIndex fun index => insertAllChecked index filled

def growChecked : CheckedUpdate (PackedArray ρ ι) Unit := do
  let capacity ← free (.view capacity)
  let blank ← free (.ask fun array => array.policy.reserve (2 * capacity))
  let entries ← free (.view fun array => array.storage.entries)
  free (onIndex OrderIndex.clear)
  let (result, grown) ← view fun _ =>
    blank.fillChecked ⟨0, blank.segmentCount⟩ entries
  let leaders ← free (.ask fun _ => result)
  changeIndex fun index => insertAllChecked index leaders
  free (.emit
    [.resized capacity grown.capacity grown.segmentCapacity entries.length])
  free (.modify fun array => { array with storage := grown })

variable [Quantity ρ]

def measureChecked (array : PackedArray ρ ι) (segment : Nat) :
    CheckedAnswer (List Reading) :=
  (List.range' 2 (array.storage.height - 1)).mapM fun level => do
    let window := Window.around segment level
    let elements ←
      array.storage.counts.elementsChecked window.start window.length
    let overfull := array.gauge.isOverfull level elements
    return { level, window, elements, overfull }

def repairChecked (array : PackedArray ρ ι) (segment : Nat)
    (readings : List Reading) (needsGap : Bool) : Checked Repair := do
  let full ← array.storage.isFullChecked segment
  return array.gauge.repair readings (needsGap && full)

def rebalanceChecked (segment : Nat) (needsGap : Bool) :
    CheckedUpdate (PackedArray ρ ι) Unit := do
  if ← view isCrammedChecked then
    growChecked
  else
    let readings ← ask fun array => array.measureChecked segment
    free (.emit (readings.map .measured))
    match ← view fun array => array.repairChecked segment readings needsGap with
    | .leave => return ()
    | .spread window => spreadChecked window
    | .grow => growChecked

/-! ## Changes -/

def ensureGap (segment : Nat) : CheckedUpdate (PackedArray ρ ι) Unit :=
  view fun array => do
    let full ← array.storage.isFullChecked segment
    ensure !full

def findRoomChecked (segment : Nat) (key : Key) :
    CheckedUpdate (PackedArray ρ ι) Nat := do
  if ← view fun array => array.storage.isFullChecked segment then
    rebalanceChecked segment true
    let segment ← view fun array => array.predecessorChecked key
    ensureGap segment
    return segment
  else
    ensureGap segment
    return segment

def placeChecked (segment : Nat) (entry : Entry) :
    CheckedUpdate (PackedArray ρ ι) Unit := do
  let previous ← ask fun array => array.storage.leader?Checked segment
  if ← changeStorage fun storage => storage.insertChecked segment entry then
    changeIndex fun index =>
      match previous with
      | some old => updateChecked index old entry.key
      | none => CheckedIndex.insertChecked index entry.key segment
  else
    return ()

def forgetChecked (segment : Nat) (key : Key) :
    CheckedUpdate (PackedArray ρ ι) Unit := do
  let next ← ask fun array => array.storage.leader?Checked segment
  changeIndex fun index =>
    match next with
    | some new => updateChecked index key new
    | none => do
        let (_, rest) ← removeAnyChecked index key
        return rest

def takeOutChecked (segment offset : Nat) (key : Key) :
    CheckedUpdate (PackedArray ρ ι) (Option Value) := do
  let least ← ask fun array => array.storage.minimumChecked segment
  let removed ← changeStorage fun storage =>
    storage.removeAtChecked segment offset
  if least = key then
    forgetChecked segment key
  return removed.map Entry.value

def removeChecked (key : Key) :
    CheckedUpdate (PackedArray ρ ι) (Option Value) := do
  if ← view isEmptyChecked then
    return none
  else
    let segment ← view fun array => array.predecessorChecked key
    match ← ask fun array => array.storage.position?Checked segment key with
    | none => return none
    | some offset =>
        let removed ← takeOutChecked segment offset key
        rebalanceChecked segment false
        return removed

def insertChecked (key : Key) (value : Value) :
    CheckedUpdate (PackedArray ρ ι) Bool := do
  let segment ← view fun array => array.predecessorChecked key
  match ← ask fun array => array.storage.position?Checked segment key with
  | some _ => return false
  | none =>
      let segment ← findRoomChecked segment key
      placeChecked segment ⟨key, value⟩
      (rebalanceChecked segment false).onFault fun fault => do
        let _ ← removeChecked key
        free (.fail fault)
      return true

end PackedArray

end PackedMemory
