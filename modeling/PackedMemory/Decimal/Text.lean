import PackedMemory.Decimal.Shortest

/-!
# The decimal text of a binary fraction

A number is written with its shortest digits: positionally while the point
stays close to them, and with a power of ten otherwise.
-/

namespace PackedMemory.Decimal

/--
How digits become text.  A number is `0.d₁d₂… * 10 ^ point`; it is written
positionally while `leastPoint ≤ point ≤ mostPoint`.
-/
structure Style where
  leastPoint : Int
  mostPoint : Int
deriving DecidableEq, Repr

inductive Form where
  | notANumber
  | infinite
  | zero
  | finite (interval : Interval)
deriving DecidableEq, Repr

def fractionWeight : Nat := Nat.pow 2 52

def exponentWeight : Nat := Nat.pow 2 11

def isNegative (bits : Nat) : Bool :=
  bits / fractionWeight / exponentWeight % 2 == 1

def Form.ofBits (bits : Nat) : Form :=
  let fraction : Nat := bits % fractionWeight
  let exponent : Nat := bits / fractionWeight % exponentWeight
  if exponent + 1 = exponentWeight then
    if fraction = 0 then .infinite else .notANumber
  else if exponent = 0 then
    if fraction = 0 then .zero else .finite (.around fraction (-1074) false)
  else
    .finite (.around (fractionWeight + fraction) ((exponent : Int) - 1075)
      (fraction = 0 && 1 < exponent))

def zeros (count : Nat) : String :=
  String.ofList (List.replicate count '0')

def positional (digits : List Char) (point : Int) : String :=
  if point ≤ 0 then
    "0." ++ zeros (-point).toNat ++ String.ofList digits
  else
    let whole := point.toNat
    let fraction := digits.drop whole
    String.ofList (digits.take whole) ++ zeros (whole - digits.length) ++ "." ++
      (if fraction.isEmpty then "0" else String.ofList fraction)

def scientific (digits : List Char) (point : Int) : String :=
  let fraction := digits.drop 1
  String.ofList (digits.take 1) ++
    (if fraction.isEmpty then "" else "." ++ String.ofList fraction) ++
    "e" ++ toString (point - 1)

def Numeral.text (style : Style) (decimal : Numeral) : String :=
  let digits := Nat.toDigits 10 decimal.digits
  let point := decimal.power + digits.length
  if style.leastPoint ≤ point ∧ point ≤ style.mostPoint then
    positional digits point
  else
    scientific digits point

def Form.text (style : Style) : Form → String
  | .notANumber => "NaN"
  | .infinite => "inf"
  | .zero => "0.0"
  | .finite interval => interval.shortest.text style

/-- The text of the number with these 64 bits; only a NaN hides its sign. -/
def textOfBits (style : Style) (bits : Nat) : String :=
  match Form.ofBits bits with
  | .notANumber => Form.text style .notANumber
  | form =>
      (if isNegative bits then "-" else "") ++ form.text style

end PackedMemory.Decimal
