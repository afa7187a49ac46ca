import PackedMemory.PackedArray.Basic

/-!
# Rebalancing

After a segment has changed, the windows around it are measured.  When one of
them holds too many elements, the elements of a larger window are spread evenly,
or the array doubles its capacity.
-/

namespace PackedMemory

def Policy.reserve {ρ : Type} (policy : Policy ρ) (capacity : Nat) :
    Except Fault Storage :=
  if capacity ≤ policy.maxCapacity then
    Storage.allocate policy.grants capacity
  else
    .error (.allocationFailure capacity)

namespace PackedArray

variable {ρ ι : Type} [Quantity ρ] [OrderIndex ι]

def measure (array : PackedArray ρ ι) (segment : Nat) :
    Except Fault (List Reading) :=
  (List.range' 2 (array.storage.height - 1)).mapM fun level => do
    let window := Window.around segment level
    let elements ← array.storage.elements window
    let overfull := array.gauge.isOverfull level elements
    return { level, window, elements, overfull }

def repair (array : PackedArray ρ ι) (segment : Nat) (readings : List Reading)
    (needsGap : Bool) : Repair :=
  array.gauge.repair readings (needsGap && array.storage.isFull segment)

/--
Spreads the elements of a window evenly.  The index forgets the old least keys
of its segments and learns the new ones.
-/
def spread (window : Window) : Update (PackedArray ρ ι) Unit := do
  let leaders ← .ask fun array => array.storage.leaders window.segments
  onIndex fun index => OrderIndex.removeAll index (leaders.map Prod.fst)
  let entries ← onStorage fun storage => storage.drain window
  .emit [.spreading window entries.length]
  let filled ← onStorage fun storage => storage.fill window entries
  onIndex fun index => OrderIndex.insertAll index filled

/--
Doubles the capacity and spreads all elements over the new segments.  The new
storage is reserved before anything changes.
-/
def grow : Update (PackedArray ρ ι) Unit := do
  let capacity ← .view capacity
  let blank ← .ask fun array => array.policy.reserve (2 * capacity)
  let entries ← .view fun array => array.storage.entries
  onIndex OrderIndex.clear
  let (result, grown) := blank.fill ⟨0, blank.segmentCount⟩ entries
  let leaders ← .ask fun _ => result
  onIndex fun index => OrderIndex.insertAll index leaders
  .emit [.resized capacity grown.capacity grown.segmentCapacity entries.length]
  .modify fun array => { array with storage := grown }

/--
Restores the bounds of the windows around a segment.  A full segment alone is
left as it is, unless `needsGap` asks for a gap in it.
-/
def rebalance (segment : Nat) (needsGap : Bool) :
    Update (PackedArray ρ ι) Unit := do
  if ← .view isCrammed then
    grow
  else
    let readings ← .ask fun array => array.measure segment
    .emit (readings.map .measured)
    match ← .view fun array => array.repair segment readings needsGap with
    | .leave => return ()
    | .spread window => spread window
    | .grow => grow

end PackedArray

end PackedMemory
