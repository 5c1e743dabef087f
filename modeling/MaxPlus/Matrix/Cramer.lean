import MaxPlus.Grid.Permanent
import MaxPlus.Matrix.Construction
import MaxPlus.Matrix.Plan
import MaxPlus.Matrix.Product

/-!
Permanents and adjoints of matrices, and linear systems by Cramer's rule.

For a matrix `A` with a tangible, finite permanent the system with right side `b` has the solution
`adj(A) ⊙ b ⊙ per(A)⁻¹`. A permanent that is a ghost or `-∞` makes the matrix singular. Every
operation checks the shapes first and then the order.
-/

set_option autoImplicit false
set_option relaxedAutoImplicit false

namespace MaxPlus

namespace Plan

variable {W : Type} [Weight W]

/-- The permanent of a grid under computation. The empty grid has the empty product. -/
def computePermanent (plan : Plan) : {n : Nat} → Grid (Computed W) n n → Computed W
  | 0, _ => 1
  | n + 1, A => if plan.isParallel (n + 1) then A.permanentByParts plan.schedule else A.permanent

def computeAdjoint (plan : Plan) {n : Nat} (A : Grid (Computed W) n n) : Grid (Computed W) n n :=
  if plan.isParallel n then A.adjointByEntries else A.adjoint

/-- The permanent of a grid of elements, up to the largest order. -/
def permanent (plan : Plan) {n : Nat} (A : Grid (Element W) n n) : Outcome W (Element W) := do
  plan.checkOrder n
  demanded (plan.computePermanent A.computed)

/-- The adjoint of a grid of elements, up to the largest order. -/
def adjoint (plan : Plan) {n : Nat} (A : Grid (Element W) n n) :
    Outcome W (Grid (Element W) n n) := do
  plan.checkOrder n
  (plan.computeAdjoint A.computed).settled

/-- The solution of a square system by Cramer's rule. -/
def solve (plan : Plan) {n : Nat} (A : Grid (Element W) n n) (b : Grid (Element W) n 1) :
    Outcome W (Grid (Element W) n 1) := do
  let permanent ← plan.permanent A
  match permanent.tangibleInverse? with
  | some inverse => do
    let adjoint ← plan.adjoint A
    let product ← (adjoint.computed.mul b.computed).settled
    (product.computed.scale (.ok inverse)).settled
  | none => .error (.error (.singular permanent))

end Plan

namespace Matrix

variable {W : Type} [Weight W]

def square (operation : Operation) (A : Matrix (Element W)) :
    Outcome W (Grid (Element W) A.rows A.rows) :=
  if h : A.cols = A.rows then .ok (A.grid.cast rfl h)
  else .error (.error (.shapeMismatch operation A.shape ⟨A.rows, A.rows⟩))

def permanent (plan : Plan) (A : Matrix (Element W)) : Outcome W (Element W) := do
  plan.permanent (← A.square .permanent)

def adjoint (plan : Plan) (A : Matrix (Element W)) : Outcome W (Matrix (Element W)) := do
  let adjoint ← plan.adjoint (← A.square .adjoint)
  return ⟨A.rows, A.rows, adjoint⟩

/-- The solution of the system with a square matrix `A` and a right side of one column. -/
def solve (plan : Plan) (A b : Matrix (Element W)) : Outcome W (Matrix (Element W)) := do
  let system ← A.square .solution
  if h : b.rows = A.rows ∧ b.cols = 1 then
    let solution ← plan.solve system (b.grid.cast h.1 h.2)
    return ⟨A.rows, 1, solution⟩
  else .error (.error (.shapeMismatch .solution A.shape b.shape))

/-- The solution of the system whose right side is a list of numbers. -/
def solveFor {α : Type} [ToElement α W] (plan : Plan) (A : Matrix (Element W)) (b : List α) :
    Outcome W (Matrix (Element W)) := do
  A.solve plan (← column b)

end Matrix

end MaxPlus
