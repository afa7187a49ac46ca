import PackedMemory.Window

/-!
# Events

What an array reports about its inner workings: which segment a lookup goes to,
how full the windows around a changed segment are, and how the array repairs
itself.
-/

namespace PackedMemory

structure Reading where
  level : Nat
  window : Window
  elements : Nat
  overfull : Bool
deriving DecidableEq, Repr

inductive Event where
  | lookup (key : Key) (segment : Nat)
  | measured (reading : Reading)
  | spreading (window : Window) (elements : Nat)
  | resized (oldCapacity capacity segmentCapacity elements : Nat)
  | layout (text : String) (capacity segmentCapacity elements height : Nat)
deriving DecidableEq, Repr

inductive Severity where
  | trace
  | debug
deriving DecidableEq, Repr

def Severity.text : Severity → String
  | .trace => "TRACE"
  | .debug => "DEBUG"

namespace Event

def severity : Event → Severity
  | lookup .. | measured .. => .trace
  | spreading .. | resized .. | layout .. => .debug

def message : Event → String
  | lookup .. => "index lookup"
  | measured .. => "calibrator window"
  | spreading .. => "spreading window"
  | resized .. => "resized"
  | layout text .. => "packed memory array:\n" ++ text

end Event

end PackedMemory
