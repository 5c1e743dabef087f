/-!
Sums, products and powers over any type with `+`, `*`, `0` and `1`.

No law is assumed, so the order of the operations is part of each definition: sums grow from `0`
and products from `1`, one operand at a time from the left. Powers square and multiply.
-/

set_option autoImplicit false
set_option relaxedAutoImplicit false

namespace MaxPlus

universe u

section Lists

variable {S : Type u}

/-- `0 + x₀ + x₁ + ⋯`, added from the left. -/
def sum [Zero S] [Add S] (xs : List S) : S :=
  xs.foldl (· + ·) 0

/-- `1 * x₀ * x₁ * ⋯`, multiplied from the left. -/
def product [One S] [Mul S] (xs : List S) : S :=
  xs.foldl (· * ·) 1

end Lists

section Families

variable {S : Type u} {n : Nat}

/-- The sum of an indexed family in increasing order of the index. -/
@[inline]
def sumOver [Zero S] [Add S] (f : Fin n → S) : S :=
  Fin.foldl n (fun acc i => acc + f i) 0

/-- The product of an indexed family in increasing order of the index, from a first factor. -/
@[inline]
def productFrom [Mul S] (head : S) (f : Fin n → S) : S :=
  Fin.foldl n (fun acc i => acc * f i) head

@[inline]
def productOver [One S] [Mul S] (f : Fin n → S) : S :=
  productFrom 1 f

end Families

section Powers

variable {S : Type u} [Mul S]

/-- Consumes the exponent bit by bit from the lowest: `result` takes the running square `base`
where the bit is set, and `base` is squared after every bit, the last one included. Returns both. -/
def squareAndMultiply (result base : S) (n : Nat) : S × S :=
  if n = 0 then (result, base)
  else squareAndMultiply (if n % 2 = 1 then result * base else result) (base * base) (n / 2)
termination_by n
decreasing_by exact Nat.div_lt_self (Nat.pos_of_ne_zero ‹_›) (by decide)

def power [One S] (x : S) (n : Nat) : S :=
  (squareAndMultiply 1 x n).1

end Powers

end MaxPlus
