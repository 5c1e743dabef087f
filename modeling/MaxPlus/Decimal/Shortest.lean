/-!
The shortest decimal inside an interval.

A positive rational value is given with the interval of numbers that stand for it. The decimal
chosen lies on the coarsest grid of multiples of a power of ten that has a point in the interval;
of two such points next to the value it is the nearer one, and the upper one at equal distance.
All comparisons are between natural numbers.
-/

set_option autoImplicit false
set_option relaxedAutoImplicit false

namespace MaxPlus.Decimal

/-- The number `digits * 10 ^ exponent`. -/
structure Scaled where
  digits : Nat
  exponent : Int

/-- The numbers from `low / den` to `high / den`, with their ends if `closed`, stand for
`value / den`. -/
structure Interval where
  low : Nat
  value : Nat
  high : Nat
  den : Nat
  closed : Bool

namespace Interval

/-- Measures the interval in units of `10 ^ t`. -/
def inUnits (I : Interval) (t : Int) : Interval :=
  match t with
  | .ofNat k => { I with den := I.den * Nat.pow 10 k }
  | .negSucc k =>
    { I with
      low := I.low * Nat.pow 10 (k + 1)
      value := I.value * Nat.pow 10 (k + 1)
      high := I.high * Nat.pow 10 (k + 1) }

def contains (I : Interval) (d : Nat) : Bool :=
  if I.closed then decide (I.low ≤ d * I.den ∧ d * I.den ≤ I.high)
  else decide (I.low < d * I.den ∧ d * I.den < I.high)

/-- The integer of the interval that is chosen: the neighbour below the value or the one above
it, whichever is in the interval, and of both the nearer. -/
def integer? (I : Interval) : Option Nat :=
  let d := I.value / I.den
  match I.contains d, I.contains (d + 1) with
  | true, true => some (if 2 * (I.value % I.den) < I.den then d else d + 1)
  | true, false => some d
  | false, true => some (d + 1)
  | false, false => none

def digitCount (n : Nat) : Nat :=
  (Nat.toDigits 10 n).length

/-- The `e` with `10 ^ e ≤ value / den < 10 ^ (e + 1)`. -/
def magnitude (I : Interval) : Int :=
  if I.den ≤ I.value then digitCount (I.value / I.den) - 1
  else -digitCount ((I.den - 1) / I.value)

/-- The grids from one unit above the value down to `places` significant digits. -/
def exponents (I : Interval) (places : Nat) : List Int :=
  (List.range (places + 1)).map fun k : Nat => I.magnitude + 1 - (k : Int)

/-- The point on the coarsest grid that meets the interval, if `places` digits are enough. -/
def shortest? (I : Interval) (places : Nat) : Option Scaled :=
  (I.exponents places).findSome? fun t => (I.inUnits t).integer?.map fun d => ⟨d, t⟩

end Interval

/-- Writes the number with all its places and no exponent: zeros fill the places between the
digits and the decimal point. -/
def Scaled.positional (x : Scaled) : String :=
  let digits := Nat.toDigits 10 x.digits
  match x.exponent with
  | .ofNat k => String.ofList (digits ++ List.replicate k '0')
  | .negSucc k =>
    let places := k + 1
    if places < digits.length then
      String.ofList (digits.take (digits.length - places) ++
        '.' :: digits.drop (digits.length - places))
    else
      String.ofList ('0' :: '.' :: (List.replicate (places - digits.length) '0' ++ digits))

end MaxPlus.Decimal
