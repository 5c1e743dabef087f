import MaxPlus.Algebra.Fold
import MaxPlus.Element.Basic

/-!
Elements under computation.

A product of elements may fail, so sums and products are formed over `Computed`: an element, or the
first product that left the weight type. An operation on two computed elements takes its left
operand first, so of several failures the one that comes first in the order of evaluation
remains.
-/

set_option autoImplicit false
set_option relaxedAutoImplicit false

namespace MaxPlus

/-- An element, or why there is none. -/
abbrev Computed (W : Type) := Except (Unsupported W) (Element W)

namespace Computed

variable {W : Type} [Weight W]

instance : Zero (Computed W) := ⟨.ok 0⟩

instance : One (Computed W) := ⟨.ok 1⟩

def add : Computed W → Computed W → Computed W
  | .ok a, .ok b => .ok (a + b)
  | .error e, _ => .error e
  | .ok _, .error e => .error e

def mul : Computed W → Computed W → Computed W
  | .ok a, .ok b => a.mul b
  | .error e, _ => .error e
  | .ok _, .error e => .error e

instance : Add (Computed W) := ⟨add⟩

instance : Mul (Computed W) := ⟨mul⟩

@[simp] theorem zero_def : (0 : Computed W) = .ok 0 := rfl

@[simp] theorem one_def : (1 : Computed W) = .ok 1 := rfl

@[simp] theorem ok_add_ok (a b : Element W) : (.ok a + .ok b : Computed W) = .ok (a + b) := rfl

@[simp] theorem ok_mul_ok (a b : Element W) : (.ok a * .ok b : Computed W) = a.mul b := rfl

@[simp] theorem error_add (e : Unsupported W) (y : Computed W) :
    (.error e + y : Computed W) = .error e := rfl

@[simp] theorem error_mul (e : Unsupported W) (y : Computed W) :
    (.error e * y : Computed W) = .error e := rfl

@[simp] theorem ok_add_error (a : Element W) (e : Unsupported W) :
    (.ok a + .error e : Computed W) = .error e := rfl

@[simp] theorem ok_mul_error (a : Element W) (e : Unsupported W) :
    (.ok a * .error e : Computed W) = .error e := rfl

end Computed

namespace Element

variable {W : Type} [Weight W]

def product (xs : List (Element W)) : Computed W :=
  MaxPlus.product (xs.map .ok)

/-- `a` to the power `n`. The square after the highest bit of `n` is formed too, though the power
has no use for it, so the power fails where that square fails. -/
def pow (a : Element W) (n : Nat) : Computed W :=
  match squareAndMultiply 1 (.ok a : Computed W) n with
  | (.ok result, .ok _) => .ok result
  | (.error e, _) => .error e
  | (.ok _, .error e) => .error e

end Element

end MaxPlus
