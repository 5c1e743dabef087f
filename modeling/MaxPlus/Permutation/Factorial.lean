/-!
Factorials, and the factorials that fit a 64-bit word.
-/

set_option autoImplicit false
set_option relaxedAutoImplicit false

namespace MaxPlus

/-- `n!` -/
def factorial : Nat → Nat
  | 0 => 1
  | n + 1 => (n + 1) * factorial n

/-- Multiplies `acc` by the numbers from `k` to `n` for as long as the product is below `2 ^ 64`. -/
def factorialFrom (acc k n : Nat) : Option Nat :=
  if n < k then some acc
  else if acc * k < UInt64.size then factorialFrom (acc * k) (k + 1) n
  else none
termination_by n + 1 - k

/-- `n!` if it is below `2 ^ 64`. Factorials grow, so the search ends at the first one that is
not. -/
def factorial? (n : Nat) : Option Nat :=
  factorialFrom 1 1 n

end MaxPlus
