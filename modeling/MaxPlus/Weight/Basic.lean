/-!
Weights: the values that max-plus algebra compares and adds.

A weight type has a least weight `bot` (no path at all), a neutral weight `unit` (the empty
path), addition, negation and an order. It may also have values that no element may carry: a top
above all weights, which a sum too large for the type becomes, and values that compare with
nothing. `Weight.supported` tells the weights that elements carry from those two.
-/

set_option autoImplicit false
set_option relaxedAutoImplicit false

namespace MaxPlus

/-- The arithmetic of one weight type. The tests are Boolean, so that a weight may fail to be
equal to itself. -/
class Weight (W : Type) extends Add W, Neg W, BEq W where
  /-- The least weight, `-∞`. -/
  bot : W
  /-- The neutral weight, `0`. -/
  unit : W
  lt : W → W → Bool
  /-- The value above every weight, `+∞`. -/
  isTop : W → Bool
  /-- A value that compares with nothing, itself included. -/
  isUnordered : W → Bool
  text : W → String

namespace Weight

variable {W : Type} [Weight W]

/-- The weights that an element may carry: `-∞` and the finite ones. -/
def supported (v : W) : Bool :=
  !(isUnordered v || isTop v)

def le (a b : W) : Bool :=
  lt a b || a == b

/-- The order as a verdict, `none` for weights that do not compare. -/
def compare (a b : W) : Option Ordering :=
  if lt a b then some .lt
  else if a == b then some .eq
  else if lt b a then some .gt
  else none

end Weight

end MaxPlus
