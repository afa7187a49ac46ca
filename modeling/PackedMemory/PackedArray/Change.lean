import PackedMemory.PackedArray.Rebalance

/-!
# Insertion and removal

A key is stored at most once, and the value that came first is kept.
-/

namespace PackedMemory

namespace PackedArray

variable {ρ ι : Type} [Quantity ρ] [OrderIndex ι]

/--
The segment for a key that is not stored.  When `segment`, which the index names
for it, is full, it gets a gap first, and the index is asked again.
-/
def findRoom (segment : Nat) (key : Key) : Update (PackedArray ρ ι) Nat := do
  if ← .view fun array => array.storage.isFull segment then
    rebalance segment true
    let segment ← .view fun array => array.predecessor key
    if ← .view fun array => array.storage.isFull segment then
      .fail (.misuse (.segmentStillFull segment))
    else
      return segment
  else
    return segment

def place (segment : Nat) (entry : Entry) : Update (PackedArray ρ ι) Unit := do
  let previous ← .ask fun array => array.storage.leader? segment
  if ← onStorage fun storage => storage.insert segment entry then
    onIndex fun index =>
      match previous with
      | some old => OrderIndex.update index old entry.key
      | none => OrderIndex.insert index entry.key segment
  else
    return ()

def forget (segment : Nat) (key : Key) : Update (PackedArray ρ ι) Unit := do
  let next ← .ask fun array => array.storage.leader? segment
  onIndex fun index =>
    match next with
    | some new => OrderIndex.update index key new
    | none => (OrderIndex.removeAny index key).2

def takeOut (segment offset : Nat) (key : Key) :
    Update (PackedArray ρ ι) (Option Value) := do
  let least ← .ask fun array => array.storage.minimum segment
  let removed ← onStorage fun storage => storage.removeAt segment offset
  if least = key then
    forget segment key
  return removed.map Entry.value

def remove (key : Key) : Update (PackedArray ρ ι) (Option Value) := do
  if ← .view isEmpty then
    return none
  else
    let segment ← .view fun array => array.predecessor key
    match ← .ask fun array => array.storage.position? segment key with
    | none => return none
    | some offset =>
        let removed ← takeOut segment offset key
        rebalance segment false
        return removed

/--
Stores an entry unless its key is stored already, and tells whether it did.  An
entry for which the array cannot grow is taken out again.
-/
def insert (key : Key) (value : Value) : Update (PackedArray ρ ι) Bool := do
  let segment ← .view fun array => array.predecessor key
  match ← .ask fun array => array.storage.position? segment key with
  | some _ => return false
  | none =>
      let segment ← findRoom segment key
      place segment ⟨key, value⟩
      (rebalance segment false).onFault fun fault => do
        let _ ← remove key
        .fail fault
      return true

def extend : List Entry → Update (PackedArray ρ ι) Unit
  | [] => return ()
  | entry :: rest => do
      let _ ← (insert entry.key entry.value).onFault fun fault =>
        .fail (.cannotExtend fault)
      extend rest

def ofList (entries : List Entry) : Except Fault (PackedArray ρ ι) := do
  let array ← create
  let outcome := extend entries array
  outcome.result
  return outcome.state

end PackedArray

end PackedMemory
