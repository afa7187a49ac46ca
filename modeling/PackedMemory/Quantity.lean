import PackedMemory.Decimal.Text

/-!
# Densities as quantities

A density is a quotient of two counts and is compared with bounds that are
computed by a few arithmetic operations.  Everything that depends on densities
takes the arithmetic as a parameter: double precision when the array runs,
rational numbers where a statement is about exact values.  No law is asked of
the operations, so a statement over every `Quantity` holds whatever the
comparisons answer.
-/

namespace PackedMemory

class Quantity (ρ : Type) extends Add ρ, Sub ρ, Mul ρ, Div ρ where
  ofNat : Nat → ρ
  lt : ρ → ρ → Bool
  le : ρ → ρ → Bool
  text : ρ → String

namespace Quantity

def ratio {ρ : Type} [Quantity ρ] (numerator denominator : Nat) : ρ :=
  ofNat numerator / ofNat denominator

end Quantity

/--
Bounds are written positionally from 0.0001 up to, and without, ten to the
sixteenth.
-/
def boundStyle : Decimal.Style := ⟨-3, 16⟩

instance : Quantity Float where
  ofNat := Float.ofNat
  lt left right := decide (left < right)
  le left right := decide (left ≤ right)
  text number := Decimal.textOfBits boundStyle number.toBits.toNat

instance : Quantity Rat where
  ofNat count := (count : Rat)
  lt left right := decide (left < right)
  le left right := decide (left ≤ right)
  text number := toString number.num ++ "/" ++ toString number.den

end PackedMemory
