/-!
Sums that are put together in any order of completion.

The places of a sum are shared out in ranges, each range is summed on its own, and the values of two
neighbouring ranges are added when both are there. A `Schedule` says how that happens at every
length. It is no choice of the caller, so what is proved of a sum holds under every schedule.
-/

set_option autoImplicit false
set_option relaxedAutoImplicit false

namespace MaxPlus

universe u v

/-- A way to combine the values of a range of places. -/
inductive Reduction (ι : Type v) where
  /-- The range without places. -/
  | empty
  | place (i : ι)
  /-- A range and the one that follows it. -/
  | join (left right : Reduction ι)

namespace Reduction

variable {ι : Type v} {S : Type u}

def places : Reduction ι → List ι
  | empty => []
  | place i => [i]
  | join left right => left.places ++ right.places

/-- The value of the range, where place `i` has the value `f i`. -/
def value [Zero S] [Add S] (f : ι → S) : Reduction ι → S
  | empty => 0
  | place i => f i
  | join left right => left.value f + right.value f

/-- There is a place, and an empty range stands only in front of one that has places. -/
def Leading : Reduction ι → Prop
  | empty => False
  | place _ => True
  | join left right => (left = empty ∨ left.Leading) ∧ right.Leading

/-- One place after the other joins the range that begins with the empty one. -/
def inOrder (is : List ι) : Reduction ι :=
  is.foldl (fun t i => join t (place i)) empty

private theorem places_foldl_join (t : Reduction ι) (is : List ι) :
    (is.foldl (fun t i => join t (place i)) t).places = t.places ++ is := by
  induction is generalizing t with
  | nil => exact (List.append_nil _).symm
  | cons i is ih =>
    rw [List.foldl_cons, ih, places, places, List.append_assoc, List.singleton_append]

theorem places_inOrder (is : List ι) : (inOrder is).places = is :=
  places_foldl_join empty is

private theorem leading_foldl_join {t : Reduction ι} (h : t.Leading) (is : List ι) :
    (is.foldl (fun t i => join t (place i)) t).Leading := by
  induction is generalizing t with
  | nil => exact h
  | cons i is ih =>
    have hjoin : (join t (place i)).Leading := ⟨.inr h, trivial⟩
    exact ih hjoin

theorem leading_inOrder (i : ι) (is : List ι) : (inOrder (i :: is)).Leading := by
  have hfirst : (join empty (place i)).Leading := ⟨.inl rfl, trivial⟩
  exact leading_foldl_join hfirst is

end Reduction

/-- How sums of every length are put together. -/
class Schedule where
  reduction : (n : Nat) → Reduction (Fin n)
  places_reduction : ∀ n, (reduction n).places = List.finRange n
  leading_reduction : ∀ n, (reduction (n + 1)).Leading

/-- From the first place to the last. -/
instance Schedule.inOrder : Schedule where
  reduction n := Reduction.inOrder (List.finRange n)
  places_reduction n := Reduction.places_inOrder _
  leading_reduction n := by
    rw [List.finRange_succ]
    exact Reduction.leading_inOrder _ _

end MaxPlus
