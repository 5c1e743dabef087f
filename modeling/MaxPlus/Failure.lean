import MaxPlus.Element.Relation

/-!
Why an operation gives no result.

An `Error` is a property of the data and is reported; a `Fault` is a broken promise of the caller.
An unsupported operand is the one or the other, as the operation lays down: `reported` and
`demanded` say which. `Error.message` and `Fault.message` hold all the wording.
-/

set_option autoImplicit false
set_option relaxedAutoImplicit false

namespace MaxPlus

structure Shape where
  rows : Nat
  cols : Nat
  deriving DecidableEq

namespace Shape

/-- The number of entries fits a 64-bit word. -/
def fits (s : Shape) : Bool :=
  decide (s.rows * s.cols < UInt64.size)

def text (s : Shape) : String :=
  "(" ++ toString s.rows ++ ", " ++ toString s.cols ++ ")"

end Shape

/-- The operations that check the shapes of their operands. -/
inductive Operation where
  | construction
  | rowConstruction
  | vectorProduct
  | matrixProduct
  | permanent
  | adjoint
  | solution
  deriving DecidableEq

def Operation.label : Operation → String
  | construction => "construction"
  | rowConstruction => "from_rows"
  | vectorProduct => "mv"
  | matrixProduct => "matrix product"
  | permanent => "permanent"
  | adjoint => "adjoint"
  | solution => "solve"

def Unsupported.text {W : Type} [Weight W] : Unsupported W → String
  | weight v => Weight.text v ++ " is neither a finite real nor -inf"
  | overflow a b => Weight.text a ++ " ⊙ " ++ Weight.text b ++ " overflows to +inf"

/-- What is wrong with the data. -/
inductive Error (W : Type) where
  /-- The shapes do not go together; the right one is the second operand's or the expected one. -/
  | shapeMismatch (operation : Operation) (left right : Shape)
  | indexOutOfRange (row col : Nat) (shape : Shape)
  /-- The permanent is a ghost or `-∞`. -/
  | singular (permanent : Element W)
  | unsupported (cause : Unsupported W)
  | orderTooLarge (order maxOrder : Nat)

namespace Error

variable {W : Type} [Weight W]

def message : Error W → String
  | shapeMismatch op left right =>
    "dimension mismatch in " ++ op.label ++ ": " ++ left.text ++ " vs " ++ right.text
  | indexOutOfRange row col shape =>
    "index " ++ (Shape.mk row col).text ++ " out of range for shape " ++ shape.text
  | singular permanent =>
    "matrix is singular: permanent " ++ permanent.text ++ " is not an invertible tangible"
  | unsupported cause => "unsupported operand: " ++ cause.text
  | orderTooLarge order maxOrder =>
    "matrix order " ++ toString order ++ " exceeds the permanent size limit " ++ toString maxOrder

/-- The same kind of error about the same things. Permanents are compared as elements, so their
marks do not count, and unsupported operands by their wording. -/
def beq : Error W → Error W → Bool
  | shapeMismatch op left right, shapeMismatch op' left' right' =>
    decide (op = op') && decide (left = left') && decide (right = right')
  | indexOutOfRange row col shape, indexOutOfRange row' col' shape' =>
    decide (row = row') && decide (col = col') && decide (shape = shape')
  | singular p, singular p' => p == p'
  | unsupported c, unsupported c' => c.text == c'.text
  | orderTooLarge n m, orderTooLarge n' m' => decide (n = n') && decide (m = m')
  | _, _ => false

instance : BEq (Error W) := ⟨beq⟩

end Error

/-- The promises that a caller may break. -/
inductive Fault (W : Type) where
  /-- An operand or a product is not supported, where it was promised to be. -/
  | unsupported (cause : Unsupported W)
  | rowOutOfRange (row : Nat)
  | indexOutOfRange (row col : Nat) (shape : Shape)
  /-- The entries of this shape cannot be counted by a word. -/
  | shapeTooLarge (shape : Shape)

def Fault.message {W : Type} [Weight W] : Fault W → String
  | unsupported cause => (Error.unsupported cause).message
  | rowOutOfRange row => "row " ++ toString row ++ " out of range"
  | indexOutOfRange row col shape => (Error.indexOutOfRange (W := W) row col shape).message
  | shapeTooLarge shape => "shape " ++ shape.text ++ " overflows usize"

inductive Failure (W : Type) where
  | error (e : Error W)
  | fault (f : Fault W)

/-- A result, or the first failure on the way to it. -/
abbrev Outcome (W : Type) := Except (Failure W)

/-- An unsupported operand counts as an error in the data. -/
def reported {W α : Type} : Except (Unsupported W) α → Outcome W α
  | .ok a => .ok a
  | .error cause => .error (.error (.unsupported cause))

/-- An unsupported operand counts as a fault of the caller. -/
def demanded {W α : Type} : Except (Unsupported W) α → Outcome W α
  | .ok a => .ok a
  | .error cause => .error (.fault (.unsupported cause))

end MaxPlus
