import MaxPlus.Algebra.Reduction
import MaxPlus.Grid.Product
import MaxPlus.Permutation.Walk

/-!
Permanents and adjoints of square grids over any type with `+`, `*`, `0` and `1`.

The permanent sums a product for each permutation, in the order of the walk. It can be parted by
the column that the permutation gives to the first row: the parts need nothing from one another,
so each has a task of its own, and a schedule puts their sum together. It is the permanent where `+`
is associative and commutative. The entries of an adjoint have tasks too, but they are collected in
their places, so no schedule shows in them.
-/

set_option autoImplicit false
set_option relaxedAutoImplicit false

namespace MaxPlus

namespace Grid

universe u

variable {S : Type u} {n : Nat}

section Permanents

variable [Zero S] [One S] [Add S] [Mul S]

/-- The product of the entries that a permutation selects, from the first row on. -/
def term (A : Grid S n n) (p : Arrangement n) : S :=
  productOver fun i => A i (p.get i)

def permanent (A : Grid S n n) : S :=
  sumArrangements A.term

/-- The product that a permutation of the columns other than `c` selects below the first row,
where column `c` is selected. -/
def partTerm (A : Grid S (n + 1) (n + 1)) (c : Fin (n + 1)) (head : S) (p : Arrangement n) : S :=
  productFrom head fun i => A i.succ (skip c (p.get i))

/-- The sum of the terms of the permutations that give column `c` to the first row. -/
def part (A : Grid S (n + 1) (n + 1)) (c : Fin (n + 1)) : S :=
  sumArrangements (A.partTerm c (1 * A 0 c))

/-- The permanent by its parts, which stand in increasing order of the first row's column. -/
def permanentByParts (schedule : Schedule) (A : Grid S (n + 1) (n + 1)) : S :=
  let parts : Vector (Task S) (n + 1) := Vector.ofFn fun c => Task.spawn fun _ => A.part c
  (schedule.reduction (n + 1)).value fun c : Fin (n + 1) => parts[c].get

/-- The adjoint: entry `(i, j)` is the permanent of the grid without row `j` and column `i`. -/
def adjoint : {n : Nat} → Grid S n n → Grid S n n
  | 0, A => A
  | _ + 1, A => ofFn fun i j => (A.minor j i).permanent

def adjointByEntries : {n : Nat} → Grid S n n → Grid S n n
  | 0, A => A
  | _ + 1, A =>
    let entries := ofFn fun i j => Task.spawn fun _ => (A.minor j i).permanent
    entries.map Task.get

end Permanents

inductive Misfit where
  /-- There is no first row to part by. -/
  | empty
  /-- The number of entries is not the square of the order. -/
  | uneven

def Misfit.message : Misfit → String
  | empty => "parallel permanent needs a non-empty matrix"
  | uneven => "permanent needs an n × n grid"

section Lists

variable [Zero S] [One S] [Add S] [Mul S]

/-- The permanent of the grid that a list fills row by row. -/
def permanentOfList (xs : List S) (n : Nat) : Except Misfit S :=
  match ofList? n n xs with
  | some A => .ok A.permanent
  | none => .error .uneven

/-- The permanent of the grid that a list fills row by row, by its parts. -/
def permanentByPartsOfList (xs : List S) (n : Nat) (schedule : Schedule := inferInstance) :
    Except Misfit S :=
  match n with
  | 0 => .error .empty
  | n + 1 =>
    match ofList? (n + 1) (n + 1) xs with
    | some A => .ok (A.permanentByParts schedule)
    | none => .error .uneven

end Lists

end Grid

end MaxPlus
