import PackedMemory.Gauge
import PackedMemory.Storage.Window
import PackedMemory.Update

/-!
# Packed memory arrays

A map from keys to values.  The entries stand in ascending order in a slot
storage, and an order index tells for each key the only segment that can hold
it.
-/

namespace PackedMemory

structure PackedArray (ρ ι : Type) where
  storage : Storage
  index : ι
  policy : Policy ρ

namespace PackedArray

variable {ρ ι : Type} [Quantity ρ] [OrderIndex ι]

def ofConfig (config : Config ρ) : Except Fault (PackedArray ρ ι) := do
  let capacity ← config.validate
  let storage ← Storage.allocate config.policy.grants capacity
  return { storage, index := OrderIndex.empty, policy := config.policy }

def ofCapacity (capacity : Nat) : Except Fault (PackedArray ρ ι) :=
  (ofConfig { initialCapacity := capacity }).mapError .cannotCreate

def create : Except Fault (PackedArray ρ ι) := ofCapacity defaultCapacity

def size (array : PackedArray ρ ι) : Nat := array.storage.total

def isEmpty (array : PackedArray ρ ι) : Bool := array.size == 0

def capacity (array : PackedArray ρ ι) : Nat := array.storage.capacity

def isCrammed (array : PackedArray ρ ι) : Bool := array.size == array.capacity

def gauge (array : PackedArray ρ ι) : Gauge ρ where
  thresholds := array.policy.thresholds
  segmentCapacity := array.storage.segmentCapacity
  height := array.storage.height

/--
Bytes of the storage and the index.  The array's own record is not counted, nor
is room that an index has in reserve.
-/
def memory (array : PackedArray ρ ι) : Nat :=
  array.storage.memory + OrderIndex.memory array.index

/-! ## Lookup -/

/-- The segment in which a key would be stored. -/
def predecessor (array : PackedArray ρ ι) (key : Key) : Nat :=
  OrderIndex.predecessor array.index key

def find? (array : PackedArray ρ ι) (key : Key) : Option Value :=
  if array.isEmpty then
    none
  else
    match array.storage.segment (array.predecessor key) with
    | .ok segment => segment.find? key
    | .error _ => none

def contains (array : PackedArray ρ ι) (key : Key) : Bool :=
  (array.find? key).isSome

def lookupEvents (array : PackedArray ρ ι) (key : Key) : List Event :=
  if array.isEmpty then [] else [.lookup key (array.predecessor key)]

/-! ## Parts of updates -/

def onStorage {α : Type} (step : Storage → Except Fault α × Storage) :
    Update (PackedArray ρ ι) α := fun array =>
  let (result, storage) := step array.storage
  ⟨result, { array with storage }, []⟩

def onIndex (change : ι → ι) : Update (PackedArray ρ ι) Unit :=
  .modify fun array => { array with index := change array.index }

end PackedArray

end PackedMemory
