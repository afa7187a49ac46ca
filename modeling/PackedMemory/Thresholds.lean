import PackedMemory.Fault
import PackedMemory.Quantity

/-!
# Density bounds

A tree stands over the segments of an array: its leaves, at level 1, are the
segments, and its root, at level `height`, is the whole array.  Every level has
a lower and an upper density bound, which run linearly between the bounds of a
leaf and those of the root.
-/

namespace PackedMemory

structure Thresholds (ρ : Type) where
  leafUpper : ρ
  rootUpper : ρ
  leafLower : ρ
  rootLower : ρ
deriving DecidableEq, Repr

structure Bounds (ρ : Type) where
  lower : ρ
  upper : ρ
deriving DecidableEq, Repr

namespace Thresholds

variable {ρ : Type} [Quantity ρ]

protected def default : Thresholds ρ where
  leafUpper := Quantity.ratio 1 1
  rootUpper := Quantity.ratio 3 4
  leafLower := Quantity.ratio 1 10
  rootLower := Quantity.ratio 3 10

def atLevel (thresholds : Thresholds ρ) (level height : Nat) : Bounds ρ :=
  let distance : ρ := Quantity.ratio (height - level) height
  { lower := thresholds.rootLower -
      (thresholds.rootLower - thresholds.leafLower) * distance
    upper := thresholds.rootUpper +
      (thresholds.leafUpper - thresholds.rootUpper) * distance }

def boundsAt (thresholds : Thresholds ρ) (level height : Nat) :
    Except Fault (Bounds ρ) :=
  if 1 ≤ level ∧ level ≤ height then
    .ok (thresholds.atLevel level height)
  else
    .error (.misuse (.levelOutside level height))

def inUnit (bound : ρ) : Bool :=
  Quantity.le (Quantity.ofNat 0) bound && Quantity.le bound (Quantity.ofNat 1)

def text (thresholds : Thresholds ρ) : String :=
  "Thresholds \x7b leaf_upper: " ++ Quantity.text thresholds.leafUpper ++
    ", root_upper: " ++ Quantity.text thresholds.rootUpper ++
    ", leaf_lower: " ++ Quantity.text thresholds.leafLower ++
    ", root_lower: " ++ Quantity.text thresholds.rootLower ++ " \x7d"

/--
The first thing wrong with the bounds.  Upper bounds must not rise and lower
bounds must not fall toward the root, and at both ends of the tree a lower bound
must stay below the upper one; between the ends the bounds are linear.
-/
def flaw? (thresholds : Thresholds ρ) : Option BoundsFlaw :=
  let all := [thresholds.leafUpper, thresholds.rootUpper, thresholds.leafLower,
    thresholds.rootLower]
  if all.any fun bound => !inUnit bound then
    some .outsideUnit
  else if Quantity.lt thresholds.leafUpper thresholds.rootUpper ||
      Quantity.lt thresholds.rootLower thresholds.leafLower then
    some .loosening
  else if Quantity.le thresholds.leafUpper thresholds.leafLower ||
      Quantity.le thresholds.rootUpper thresholds.rootLower then
    some .crossing
  else
    none

def validate (thresholds : Thresholds ρ) : Except Fault Unit :=
  match thresholds.flaw? with
  | some flaw => .error (.invalidThresholds flaw thresholds.text)
  | none => .ok ()

theorem validate_eq_ok_iff (thresholds : Thresholds ρ) :
    thresholds.validate = .ok () ↔ thresholds.flaw? = none := by
  unfold validate
  cases thresholds.flaw? <;> simp

end Thresholds

end PackedMemory
