import PackedMemory.Event
import PackedMemory.Thresholds

/-!
# The density gauge

Which windows hold too many elements, which of them an even spread would put
right, and which repair follows from it.  None of this depends on what the
elements are: the gauge sees the shape of the tree and the number of elements in
each window.
-/

namespace PackedMemory

structure Gauge (ρ : Type) where
  thresholds : Thresholds ρ
  segmentCapacity : Nat
  height : Nat
deriving DecidableEq, Repr

inductive Repair where
  | leave
  | spread (window : Window)
  | grow
deriving DecidableEq, Repr

def highestOverfull (readings : List Reading) : Option Nat :=
  ((readings.filter Reading.overfull).getLast?).map Reading.level

/--
The most elements that a window at level `sub` receives when `elements` are
shared out evenly over a window at `level`: its first segments get the remainder.
-/
def largestShare (level sub elements : Nat) : Nat :=
  let length := Window.lengthAt level
  Window.lengthAt sub * (elements / length) +
    min (Window.lengthAt sub) (elements % length)

namespace Gauge

variable {ρ : Type} [Quantity ρ]

/--
A window holds too many elements when some segment of it cannot have a gap, or,
above the leaves, when its density exceeds the upper bound of its level.
-/
def isOverfull (gauge : Gauge ρ) (level elements : Nat) : Bool :=
  let length := Window.lengthAt level
  if length * (gauge.segmentCapacity - 1) < elements then
    true
  else if level = 1 then
    false
  else
    Quantity.lt (gauge.thresholds.atLevel level gauge.height).upper
      (Quantity.ratio elements (length * gauge.segmentCapacity))

def isSpreadable (gauge : Gauge ρ) (level elements : Nat) : Bool :=
  (List.range' 1 level).all fun sub =>
    !gauge.isOverfull sub (largestShare level sub elements)

/--
The repair that follows from the readings of the windows around a segment, from
level 2 upward.  The search starts above the highest overfull window, or at level
2 when the segment itself needs a gap.
-/
def repair (gauge : Gauge ρ) (readings : List Reading) (needsGap : Bool) :
    Repair :=
  let spreadFrom (least : Nat) : Repair :=
    match readings.find? fun reading =>
        least ≤ reading.level &&
          gauge.isSpreadable reading.level reading.elements with
    | some reading => .spread reading.window
    | none => .grow
  match highestOverfull readings with
  | some level => spreadFrom (level + 1)
  | none => if needsGap then spreadFrom 2 else .leave

end Gauge

end PackedMemory
