import MaxPlus.Permutation.Factorial

/-!
A walk through all permutations of `0, …, n - 1`, each reached from the one before by one
exchange of two places.

The counters are the digits of a number in the factorial base, and a step adds one to it: it
clears the digits that are full and raises the first that is not. The level of the raised digit
says which two places are exchanged. The walk starts at the identity and ends when every digit is
full; from then on it stands still with all its counters cleared.
-/

set_option autoImplicit false
set_option relaxedAutoImplicit false

namespace MaxPlus

universe u

/-- A rearrangement: place `i` holds the number `p[i]`. -/
abbrev Arrangement (n : Nat) := Vector (Fin n) n

/-- The state of a walk: the permutation it stands at, the number of exchanges made on each level
since it was last cleared, the level where the next step begins to look, and whether the first
permutation has been given out. -/
structure Walk (n : Nat) where
  current : Arrangement n
  counters : Vector Nat n
  level : Nat
  started : Bool

namespace Walk

variable {n : Nat}

/-- The walk before its first step. -/
def start (n : Nat) : Walk n where
  current := Vector.ofFn id
  counters := Vector.replicate n 0
  level := 1
  started := false

/-- Goes back to before the first step. -/
def reset (_ : Walk n) : Walk n :=
  start n

/-- The place that is exchanged with place `level`: the first one on an even level, and the place
of the level's counter on an odd one. -/
def partner (w : Walk n) (h : w.level < n) (hc : w.counters[w.level] < w.level) : Fin n :=
  if w.level % 2 = 0 then ⟨0, Nat.lt_of_le_of_lt (Nat.zero_le _) h⟩
  else ⟨w.counters[w.level], Nat.lt_trans hc h⟩

/-- Looks for the first level whose counter is not full, clearing those that are, and makes the
exchange that belongs to it. There is none once every counter is full. -/
def climb (w : Walk n) : Option (Arrangement n) × Walk n :=
  if h : w.level < n then
    if hc : w.counters[w.level] < w.level then
      let p := w.current.swap (w.partner h hc) w.level (w.partner h hc).isLt h
      (some p,
        { w with
          current := p
          counters := w.counters.set w.level (w.counters[w.level] + 1) h
          level := 1 })
    else
      climb { w with counters := w.counters.set w.level 0 h, level := w.level + 1 }
  else
    (none, w)
termination_by n - w.level

/-- The next permutation, if there is one, and the walk after it. The first is the one where the
walk stands. -/
def next (w : Walk n) : Option (Arrangement n) × Walk n :=
  if w.started then w.climb
  else (some w.current, { w with started := true })

/-- Folds over the next permutations for at most `bound` steps, and returns the walk where it
stopped. -/
@[specialize]
def foldSteps {β : Type u} (f : β → Arrangement n → β) : Nat → β → Walk n → β × Walk n
  | 0, acc, w => (acc, w)
  | bound + 1, acc, w =>
    match w.next with
    | (some p, w') => foldSteps f bound (f acc p) w'
    | (none, w') => (acc, w')

/-- Folds over all permutations that are left. There are at most `n!` of them, and one more step
finds the end. -/
@[inline]
def foldRest {β : Type u} (w : Walk n) (f : β → Arrangement n → β) (init : β) : β × Walk n :=
  foldSteps f (factorial n + 1) init w

/-- The permutations that are left, and the walk at its end. -/
def drain (w : Walk n) : List (Arrangement n) × Walk n :=
  match w.foldRest (fun ps p => p :: ps) [] with
  | (ps, w') => (ps.reverse, w')

end Walk

/-- Sums a term for each permutation of `0, …, n - 1` in the order of the walk, from `0`. -/
@[inline]
def sumArrangements {S : Type u} [Zero S] [Add S] {n : Nat} (term : Arrangement n → S) : S :=
  ((Walk.start n).foldRest (fun total p => total + term p) 0).1

end MaxPlus
