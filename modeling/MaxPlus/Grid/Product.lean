import MaxPlus.Algebra.Fold
import MaxPlus.Grid.Basic

/-!
Products of grids over any type with `+`, `*` and `0`.

Each entry of a product is a sum that grows from `0` in increasing order of the inner index.
-/

set_option autoImplicit false
set_option relaxedAutoImplicit false

namespace MaxPlus

namespace Grid

universe u

variable {S : Type u} {r k c : Nat}

section Products

variable [Zero S] [Add S] [Mul S]

def dot (A : Grid S r k) (B : Grid S k c) (i : Fin r) (j : Fin c) : S :=
  sumOver fun t => A i t * B t j

def mul (A : Grid S r k) (B : Grid S k c) : Grid S r c :=
  ofFn fun i j => A.dot B i j

/-- The product of two grids with a task for each row of the result. -/
def mulByRows (A : Grid S r k) (B : Grid S k c) : Grid S r c :=
  let rows : Vector (Task (Vector S c)) r :=
    Vector.ofFn fun i => Task.spawn fun _ => Vector.ofFn fun j => A.dot B i j
  ofFn fun i j => rows[i].get[j]

def mulVec (A : Grid S r c) (x : Vector S c) : Vector S r :=
  Vector.ofFn fun i => sumOver fun j => A i j * x[j]

end Products

/-- Every entry times `x`, with `x` on the right. -/
def scale [Mul S] (A : Grid S r c) (x : S) : Grid S r c :=
  A.map (· * x)

@[simp] theorem mul_apply [Zero S] [Add S] [Mul S] (A : Grid S r k) (B : Grid S k c) (i : Fin r)
    (j : Fin c) : A.mul B i j = A.dot B i j := by
  simp [mul]

@[simp] theorem scale_apply [Mul S] (A : Grid S r c) (x : S) (i : Fin r) (j : Fin c) :
    A.scale x i j = A i j * x := by
  simp [scale]

end Grid

end MaxPlus
