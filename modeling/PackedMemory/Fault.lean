import PackedMemory.Slot

/-!
# Faults

Everything that can keep an operation from finishing.  A correct caller meets
only `allocationFailure`, and the two refusals of a configuration; the rest
report a broken precondition or a structure that contradicts itself.
-/

namespace PackedMemory

inductive BoundsFlaw where
  | outsideUnit
  | loosening
  | crossing
deriving DecidableEq, Repr

def BoundsFlaw.message : BoundsFlaw → String
  | .outsideUnit => "bounds must lie in [0, 1]"
  | .loosening => "bounds must tighten toward the root"
  | .crossing => "lower bound must stay below upper bound"

inductive Corruption where
  | missingMinimum (segment count : Nat)
  | overfilling (elements segments slots : Nat)
  | excess (elements capacity : Nat)
  | wrongCount (segment counted held : Nat)
  | wrongTotal (held counted : Nat)
  | unsorted
  | wrongIndex (actual expected : List (Key × Nat))
deriving DecidableEq, Repr

def leadersText (leaders : List (Key × Nat)) : String :=
  "[" ++ ", ".intercalate (leaders.map fun (key, segment) =>
    "(" ++ toString key ++ ", " ++ toString segment ++ ")") ++ "]"

def Corruption.message : Corruption → String
  | .missingMinimum segment count =>
      s!"segment {segment} counts {count} elements but has none"
  | .overfilling elements segments slots =>
      s!"{elements} elements do not fit in {segments} segments of {slots} slots"
  | .excess elements capacity =>
      s!"{elements} elements exceed capacity {capacity}"
  | .wrongCount segment counted held =>
      s!"segment {segment} counts {counted} elements but holds {held}"
  | .wrongTotal held counted =>
      s!"segments hold {held} elements, total says {counted}"
  | .unsorted => "keys are not strictly increasing"
  | .wrongIndex actual expected =>
      "index " ++ leadersText actual ++ " does not match segment minimums " ++
        leadersText expected

inductive Misuse where
  | levelOutside (level height : Nat)
  | windowOutside (start length segmentCount : Nat)
  | windowOccupied (start length : Nat)
  | unusableCapacity (capacity : Nat)
  | segmentStillFull (segment : Nat)
  | slotsOutside (start stop capacity : Nat)
deriving DecidableEq, Repr

def Misuse.message : Misuse → String
  | .levelOutside level height => s!"no level {level} in a height of {height}"
  | .windowOutside start length segmentCount =>
      s!"window of {length} segments at {start} exceeds {segmentCount} segments"
  | .windowOccupied start length =>
      s!"window of {length} segments at {start} is not empty"
  | .unusableCapacity capacity => s!"{capacity} slots cannot be laid out"
  | .segmentStillFull segment => s!"segment {segment} still full after rebalancing"
  | .slotsOutside start stop capacity =>
      s!"slots {start} to {stop} exceed {capacity} slots"

inductive Fault where
  | outOfRange (segment segmentCount : Nat)
  | emptySegment (segment : Nat)
  | segmentFull (segment : Nat)
  | allocationFailure (capacity : Nat)
  | invalidCapacity (capacity : Nat)
  | invalidThresholds (flaw : BoundsFlaw) (bounds : String)
  | corrupted (corruption : Corruption)
  | misuse (cause : Misuse)
  | cannotCreate (cause : Fault)
  | cannotExtend (cause : Fault)
deriving DecidableEq, Repr

def Fault.message : Fault → String
  | .outOfRange segment segmentCount =>
      s!"segment {segment} is out of range (segment count {segmentCount})"
  | .emptySegment segment => s!"segment {segment} holds no elements"
  | .segmentFull segment => s!"segment {segment} has no free slot"
  | .allocationFailure capacity =>
      s!"failed to allocate storage for {capacity} slots"
  | .invalidCapacity capacity => s!"invalid capacity {capacity}"
  | .invalidThresholds flaw bounds =>
      "invalid density thresholds: " ++ flaw.message ++ ": " ++ bounds
  | .corrupted corruption => "corrupted array: " ++ corruption.message
  | .misuse cause => cause.message
  | .cannotCreate cause => "cannot create packed memory array: " ++ cause.message
  | .cannotExtend cause => "cannot extend packed memory array: " ++ cause.message

end PackedMemory
