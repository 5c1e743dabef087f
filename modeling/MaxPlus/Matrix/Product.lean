import MaxPlus.Algebra.Computed
import MaxPlus.Element.Conversion
import MaxPlus.Grid.Product
import MaxPlus.Matrix.Basic

/-!
Products of matrices of elements.

The grids are multiplied over computed elements, and of the entries that overflow the first in the
row-by-row order is the fault. The rows of a product may have tasks of their own, but they are
collected in their places, so no schedule shows in them. The number of entries of a product is not
checked: it is taken to fit a word, as that of anything that is held.
-/

set_option autoImplicit false
set_option relaxedAutoImplicit false

namespace MaxPlus

namespace Grid

variable {W : Type} {r c : Nat}

/-- The entries as operands of a computation. -/
def computed (A : Grid (Element W) r c) : Grid (Computed W) r c :=
  A.map .ok

/-- The grid of the computed entries; an overflow is a fault. -/
def settled (A : Grid (Computed W) r c) : Outcome W (Grid (Element W) r c) :=
  demanded A.sequence

end Grid

namespace Matrix

variable {W : Type} [Weight W]

/-- Multiplies two matrices that go together with the given product of grids. -/
private def mulWith
    (product : {r k c : Nat} → Grid (Computed W) r k → Grid (Computed W) k c →
      Grid (Computed W) r c)
    (A B : Matrix (Element W)) : Outcome W (Matrix (Element W)) :=
  if h : A.cols = B.rows then do
    let g ← (product A.grid.computed (B.grid.cast h.symm rfl).computed).settled
    return ⟨A.rows, B.cols, g⟩
  else .error (.error (.shapeMismatch .matrixProduct A.shape B.shape))

def mul : Matrix (Element W) → Matrix (Element W) → Outcome W (Matrix (Element W)) :=
  mulWith Grid.mul

/-- The product of two matrices with a task for each row. -/
def mulByRows : Matrix (Element W) → Matrix (Element W) → Outcome W (Matrix (Element W)) :=
  mulWith Grid.mulByRows

instance : HMul (Matrix (Element W)) (Matrix (Element W)) (Outcome W (Matrix (Element W))) := ⟨mul⟩

/-- The product of a matrix and a list of elements. -/
def mulVec (A : Matrix (Element W)) (xs : List (Element W)) : Outcome W (List (Element W)) :=
  if h : xs.length = A.cols then
    let x : Vector (Computed W) A.cols := ⟨(xs.map .ok).toArray, by simpa using h⟩
    demanded ((A.grid.computed.mulVec x).toList.mapM id)
  else .error (.error (.shapeMismatch .vectorProduct A.shape ⟨xs.length, 1⟩))

def scale (A : Matrix (Element W)) (x : Element W) : Outcome W (Matrix (Element W)) := do
  let g ← (A.grid.computed.scale (.ok x)).settled
  return ⟨A.rows, A.cols, g⟩

def scaleBy {α : Type} [ToElement α W] (A : Matrix (Element W)) (x : α) :
    Outcome W (Matrix (Element W)) := do
  A.scale (← reported (ToElement.toElement x))

end Matrix

end MaxPlus
