import MaxPlus.Element.Basic

/-!
Relations between elements.

Equality and order look at the values only. `sameAs` compares the marks too, and
`ghostSurpasses` is the relation that takes the place of equality in solved systems: the left
side is the right side, or a ghost of at least its value.
-/

set_option autoImplicit false
set_option relaxedAutoImplicit false

namespace MaxPlus

namespace Element

variable {W : Type} [Weight W]

instance : BEq (Element W) := ⟨fun a b => a.value == b.value⟩

def lt (a b : Element W) : Bool :=
  Weight.lt a.value b.value

def le (a b : Element W) : Bool :=
  Weight.le a.value b.value

def compare (a b : Element W) : Option Ordering :=
  Weight.compare a.value b.value

def sameAs (a b : Element W) : Bool :=
  a.value == b.value && a.ghost == b.ghost

/-- The same element, or a ghost of at least the value. -/
def ghostSurpasses (a b : Element W) : Bool :=
  a.sameAs b || (a.ghost && Weight.le b.value a.value)

theorem beq_def (a b : Element W) : (a == b) = (a.value == b.value) := rfl

end Element

end MaxPlus
