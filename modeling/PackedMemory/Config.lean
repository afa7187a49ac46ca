import PackedMemory.PowerOfTwo
import PackedMemory.Thresholds

/-!
# Configuration

What an array is created with, and the policy it keeps for the rest of its life.
-/

namespace PackedMemory

/-- One more than the largest number a machine word can hold. -/
def wordLimit : Nat := Nat.pow 2 64

def defaultCapacity : Nat := 64

/-- Two segments of two slots each. -/
def leastCapacity : Nat := 4

def slotBytes : Nat := 24

/-- No block of memory is larger than the distance of two addresses can tell. -/
def addressable (slots : Nat) : Bool :=
  slots * slotBytes < wordLimit / 2

/--
How an array may grow.  `available` tells whether there is memory for so many
slots.
-/
structure Policy (ρ : Type) where
  thresholds : Thresholds ρ
  maxCapacity : Nat
  available : Nat → Bool

def Policy.grants {ρ : Type} (policy : Policy ρ) (slots : Nat) : Bool :=
  addressable slots && policy.available slots

structure Config (ρ : Type) [Quantity ρ] where
  initialCapacity : Nat := defaultCapacity
  maxCapacity : Nat := wordLimit - 1
  thresholds : Thresholds ρ := .default
  available : Nat → Bool := fun _ => true

def normalizeCapacity (capacity : Nat) : Except Fault Nat :=
  let rounded := nextPowerOfTwo (max capacity leastCapacity)
  if rounded < wordLimit then
    .ok rounded
  else
    .error (.invalidCapacity capacity)

namespace Config

variable {ρ : Type} [Quantity ρ]

def policy (config : Config ρ) : Policy ρ where
  thresholds := config.thresholds
  maxCapacity := config.maxCapacity
  available := config.available

def validate (config : Config ρ) : Except Fault Nat := do
  config.thresholds.validate
  let capacity ← normalizeCapacity config.initialCapacity
  if config.maxCapacity < capacity then
    .error (.invalidCapacity config.maxCapacity)
  else
    .ok capacity

end Config

end PackedMemory
