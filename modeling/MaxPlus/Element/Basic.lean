import MaxPlus.Weight.Basic

/-!
Elements: weights with a ghost mark.

Addition keeps the greater element and marks a tie as a ghost; multiplication adds the weights,
and a ghost factor makes the product a ghost. An element without the mark is tangible. Sums
always exist. Products may leave the weight type at the top, so they are `Except` values whose
failure names the two weights.
-/

set_option autoImplicit false
set_option relaxedAutoImplicit false

namespace MaxPlus

/-- A weight with its mark: a ghost, or else tangible. -/
structure Element (W : Type) where
  value : W
  ghost : Bool

/-- Why a weight cannot become the value of an element. -/
inductive Unsupported (W : Type) where
  /-- The weight is the top, or compares with nothing. -/
  | weight (v : W)
  /-- The two weights are supported, and their sum is the top. -/
  | overflow (a b : W)

namespace Element

variable {W : Type} [Weight W]

instance : Zero (Element W) := ⟨⟨Weight.bot, false⟩⟩

instance : One (Element W) := ⟨⟨Weight.unit, false⟩⟩

instance : Inhabited (Element W) := ⟨0⟩

/-- The value is `-∞`, whatever the mark. -/
def isZero (a : Element W) : Bool :=
  a.value == Weight.bot

def isOne (a : Element W) : Bool :=
  a.value == Weight.unit && !a.ghost

def isTangible (a : Element W) : Bool :=
  !a.ghost

/-- The element of a supported weight and a mark. `-∞` is tangible even where the mark is asked
for. -/
def ofWeight (v : W) (ghost : Bool) : Except (Unsupported W) (Element W) :=
  if Weight.supported v then .ok ⟨v, ghost && !(v == Weight.bot)⟩ else .error (.weight v)

def tangible (v : W) : Except (Unsupported W) (Element W) :=
  ofWeight v false

/-- `a ⊕ b`: the greater of the two with its own mark, or their common value as a ghost. `-∞`
leaves the other operand as it is. -/
def add (a b : Element W) : Element W :=
  if a.isZero then b
  else if b.isZero then a
  else if Weight.lt b.value a.value then a
  else if Weight.lt a.value b.value then b
  else ⟨a.value, true⟩

instance : Add (Element W) := ⟨add⟩

/-- `a ⊙ b`: the sum of the values, a ghost if either factor is one. `-∞` absorbs. -/
def mul (a b : Element W) : Except (Unsupported W) (Element W) :=
  if a.isZero || b.isZero then .ok 0
  else if Weight.isTop (a.value + b.value) then .error (.overflow a.value b.value)
  else .ok ⟨a.value + b.value, a.ghost || b.ghost⟩

/-- The negated value with the same mark; `-∞` has no inverse. -/
def inverse? (a : Element W) : Option (Element W) :=
  if a.isZero then none else some ⟨-a.value, a.ghost⟩

/-- The inverse of an element that is tangible and not `-∞`. -/
def tangibleInverse? (a : Element W) : Option (Element W) :=
  if a.isTangible then a.inverse? else none

/-- The ghost of the same value; `-∞` stays tangible. -/
def toGhost (a : Element W) : Element W :=
  ⟨a.value, !a.isZero⟩

def toTangible (a : Element W) : Element W :=
  ⟨a.value, false⟩

/-- The written value, followed by `ν` for a ghost. -/
def text (a : Element W) : String :=
  if a.isZero then "-∞"
  else if a.ghost then Weight.text a.value ++ "ν"
  else Weight.text a.value

@[simp] theorem value_zero : (0 : Element W).value = Weight.bot := rfl

@[simp] theorem ghost_zero : (0 : Element W).ghost = false := rfl

@[simp] theorem value_one : (1 : Element W).value = Weight.unit := rfl

@[simp] theorem ghost_one : (1 : Element W).ghost = false := rfl

theorem add_def (a b : Element W) : a + b = add a b := rfl

end Element

end MaxPlus
