/-!
# Powers of two

Capacities, window lengths and numbers of segments are powers of two.
-/

namespace PackedMemory

def isPowerOfTwo (number : Nat) : Bool :=
  Nat.pow 2 (Nat.log2 number) == number

def ceilLog2 (number : Nat) : Nat :=
  if number ≤ 1 then 0 else Nat.log2 (number - 1) + 1

def nextPowerOfTwo (number : Nat) : Nat := Nat.pow 2 (ceilLog2 number)

end PackedMemory
