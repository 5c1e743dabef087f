import MaxPlus.Algebra.Reduction
import MaxPlus.Failure

/-!
How permanents are evaluated: up to which order, and from which order on in parallel.

A plan also has the schedule that its parallel sums happen to follow. The caller sets the two
numbers, and a statement about every plan is one about every schedule.
-/

set_option autoImplicit false
set_option relaxedAutoImplicit false

namespace MaxPlus

/-- The largest order that is evaluated, and the smallest one that is spread over tasks. -/
structure Plan where
  maxOrder : Nat
  parallelThreshold : Nat
  [schedule : Schedule]

namespace Plan

/-- Orders up to ten in sequence. The threshold is the largest 64-bit word, which no order that is
evaluated reaches. -/
def sequential : Plan where
  maxOrder := 10
  parallelThreshold := UInt64.size - 1

/-- Orders up to ten, in parallel from eight on. -/
def parallel : Plan :=
  { sequential with parallelThreshold := 8 }

instance : Inhabited Plan := ⟨sequential⟩

/-- Matrices of order `n` are spread over tasks. -/
def isParallel (plan : Plan) (n : Nat) : Bool :=
  decide (plan.parallelThreshold ≤ n)

/-- Refuses orders above the largest. -/
def checkOrder {W : Type} (plan : Plan) (n : Nat) : Outcome W Unit :=
  if plan.maxOrder < n then .error (.error (.orderTooLarge n plan.maxOrder)) else .ok ()

end Plan

end MaxPlus
