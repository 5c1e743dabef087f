import MaxPlus.Weight.Basic
import MaxPlus.Decimal.Shortest

/-!
Double-precision weights.

Sums round to the nearest double, and a sum above the largest one is the top. A double is written
with the fewest digits that read back as the same double, positionally and without an exponent.
-/

set_option autoImplicit false
set_option relaxedAutoImplicit false

namespace MaxPlus.Binary64

/-- The significand of a power of two. -/
def leastNormal : Nat := 0x10000000000000

/-- The exponent of the smallest positive double. -/
def leastExponent : Int := -1074

/-- The numbers that round to `m * 2 ^ q`, in quarters of the last place. Half a place belongs to
it on either side, half as much below a power of two, and the ends only if `m` is even. -/
def roundingInterval (m : Nat) (q : Int) : Decimal.Interval :=
  let below := if m = leastNormal ∧ q ≠ leastExponent then 1 else 2
  let scale := Nat.pow 2 (q - 2).toNat
  { low := (4 * m - below) * scale
    value := 4 * m * scale
    high := (4 * m + 2) * scale
    den := Nat.pow 2 (2 - q).toNat
    closed := m % 2 == 0 }

/-- The text of a positive finite double: seventeen significant digits are always enough. -/
def magnitudeText (m : Nat) (q : Int) : String :=
  match (roundingInterval m q).shortest? 17 with
  | some x => x.positional
  | none => ""

def signText : Float.Model.UnpackedFloat.Sign → String
  | .negative => "-"
  | .positive => ""

/-- The text of a double. -/
def text (x : Float) : String :=
  match x.toModel.unpack with
  | .notANumber => "NaN"
  | .infinity s => signText s ++ "inf"
  | .zero s => signText s ++ "0"
  | .finite s m q _ => signText s ++ magnitudeText m q

def top : Float := Float.ofBits 0x7ff0000000000000

def bot : Float := Float.ofBits 0xfff0000000000000

instance : Weight Float where
  bot := bot
  unit := 0
  lt a b := decide (a < b)
  isTop a := a == top
  isUnordered := Float.isNaN
  text := text

end MaxPlus.Binary64
