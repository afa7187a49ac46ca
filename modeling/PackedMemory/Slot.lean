/-!
# Slots

The array stores key and value pairs in slots.  A slot without a pair is a gap.
-/

namespace PackedMemory

abbrev Key := Int64

abbrev Value := Int64

structure Entry where
  key : Key
  value : Value
deriving DecidableEq, Repr, Inhabited

abbrev Slot := Option Entry

def Slot.text : Slot → String
  | none => "_"
  | some entry =>
      toString entry.key ++ " (" ++ toString entry.value ++ ")"

end PackedMemory
