import MaxPlus.Proofs.Algebra.Fold
import MaxPlus.Proofs.Permutation.Enumeration

/-!
Sums over the permutations.

A fold over the rest of a walk is a fold over the list of what it yields. Where `+` is associative
and commutative the sum over the walk is the sum over the symmetric group. A permutation of
`n + 1` places is a choice of where one place goes and a permutation of `n` places.
-/

set_option autoImplicit false
set_option relaxedAutoImplicit false

namespace MaxPlus

open scoped Nat

universe u v

variable {n : ℕ}

namespace Walk

section Fold

variable {β : Type u} (f : β → Arrangement n → β)

private theorem foldSteps_of_none {w : Walk n} (h : w.next.1 = none) (bound : ℕ) (acc : β) :
    foldSteps f (bound + 1) acc w = (acc, w.next.2) := by
  rw [foldSteps]
  split <;> simp_all

private theorem foldSteps_of_some {w : Walk n} {p : Arrangement n} (h : w.next.1 = some p)
    (bound : ℕ)
    (acc : β) : foldSteps f (bound + 1) acc w = foldSteps f bound (f acc p) w.next.2 := by
  rw [foldSteps]
  split <;> simp_all

/-- With enough steps the fold takes everything the walk yields before its end. -/
private theorem foldSteps_eq {m bound : ℕ} (w : Walk n) (acc : β) (a : Fin m → Arrangement n)
    (ha : ∀ k, w.yield k.val = some (a k)) (hend : w.yield m = none) (hbound : m < bound) :
    foldSteps f bound acc w = ((List.ofFn a).foldl f acc, w.after (m + 1)) := by
  obtain ⟨bound, rfl⟩ : ∃ b, bound = b + 1 := ⟨bound - 1, by omega⟩
  induction m generalizing w acc bound with
  | zero => exact foldSteps_of_none f hend bound acc
  | succ m ih =>
    obtain ⟨bound, rfl⟩ : ∃ b, bound = b + 1 := ⟨bound - 1, by omega⟩
    have hfirst : w.next.1 = some (a 0) := ha 0
    rw [foldSteps_of_some f hfirst, ih w.next.2 (f acc (a 0)) (fun k => a k.succ), List.ofFn_succ,
      List.foldl_cons, after_next]
    · intro k
      rw [yield_next]
      exact ha k.succ
    · rw [yield_next]
      exact hend
    · omega

private theorem foldRest_start (init : β) :
    (start n).foldRest f init =
      ((List.ofFn fun k => arrangementOf (permutationAt k)).foldl f init, finished n) := by
  have hbound : n ! < factorial n + 1 := by
    rw [factorial_eq_natFactorial]
    exact Nat.lt_succ_self _
  rw [foldRest, foldSteps_eq f (start n) init (fun k : Fin n ! => arrangementOf (permutationAt k))
    yield_start (yield_start_of_le le_rfl) hbound, after_start_of_lt (Nat.lt_succ_self _)]

end Fold

end Walk

section Sums

variable {S : Type u} {T : Type v}

private theorem sumArrangements_eq_sum_ofFn [Zero S] [Add S] (term : Arrangement n → S) :
    sumArrangements term =
      MaxPlus.sum (List.ofFn fun k : Fin n ! => term (arrangementOf (permutationAt k))) := by
  rw [sumArrangements, Walk.foldRest_start, MaxPlus.sum]
  simp only [List.ofFn_eq_map, List.foldl_map]

private theorem sum_permutationAt [AddCommMonoid S] (f : Equiv.Perm (Fin n) → S) :
    MaxPlus.sum (List.ofFn fun k : Fin n ! => f (permutationAt k)) = ∑ σ, f σ := by
  rw [MaxPlus.sum, ← List.sum_eq_foldl, List.sum_ofFn]
  exact permutationAt_bijective.sum_comp f

theorem sumArrangements_eq_sum [AddCommMonoid S] (term : Arrangement n → S) :
    sumArrangements term = ∑ σ : Equiv.Perm (Fin n), term (arrangementOf σ) := by
  rw [sumArrangements_eq_sum_ofFn]
  exact sum_permutationAt fun σ => term (arrangementOf σ)

namespace RespectsSums

variable [Zero S] [Add S] {R : S → T → Prop}

theorem sumArrangements [Zero T] [Add T] (h : RespectsSums R) {f : Arrangement n → S}
    {g : Arrangement n → T} (hfg : ∀ p, R (f p) (g p)) :
    R (MaxPlus.sumArrangements f) (MaxPlus.sumArrangements g) := by
  rw [sumArrangements_eq_sum_ofFn, sumArrangements_eq_sum_ofFn]
  exact h.sum_ofFn fun k => hfg _

theorem sumArrangements_sum [AddCommMonoid T] (h : RespectsSums R) {f : Arrangement n → S}
    {t : Equiv.Perm (Fin n) → T} (hft : ∀ σ, R (f (arrangementOf σ)) (t σ)) :
    R (MaxPlus.sumArrangements f) (∑ σ, t σ) := by
  rw [sumArrangements_eq_sum_ofFn, ← sum_permutationAt]
  exact h.sum_ofFn fun k => hft _

end RespectsSums

end Sums

/-- The permutation that sends `i` to `c` and the other places as `τ` does. -/
def insertAt (i c : Fin (n + 1)) (τ : Equiv.Perm (Fin n)) : Equiv.Perm (Fin (n + 1)) :=
  (finSuccEquiv' i).trans ((Equiv.optionCongr τ).trans (finSuccEquiv' c).symm)

@[simp] theorem insertAt_self (i c : Fin (n + 1)) (τ : Equiv.Perm (Fin n)) :
    insertAt i c τ i = c := by
  simp [insertAt]

@[simp] theorem insertAt_succAbove (i c : Fin (n + 1)) (τ : Equiv.Perm (Fin n)) (p : Fin n) :
    insertAt i c τ (i.succAbove p) = c.succAbove (τ p) := by
  simp [insertAt]

private theorem insertAt_bijective (i : Fin (n + 1)) :
    Function.Bijective fun p : Fin (n + 1) × Equiv.Perm (Fin n) => insertAt i p.1 p.2 := by
  rw [Fintype.bijective_iff_injective_and_card]
  constructor
  · rintro ⟨c, τ⟩ ⟨c', τ'⟩ h
    have hc : c = c' := by
      simpa using congrArg (fun σ : Equiv.Perm (Fin (n + 1)) => σ i) h
    subst hc
    have hτ : τ = τ' := by
      ext p
      have hp := congrArg (fun σ : Equiv.Perm (Fin (n + 1)) => σ (i.succAbove p)) h
      simpa using congrArg Fin.val (c.succAbove_right_injective (by simpa using hp))
    rw [hτ]
  · simp [Fintype.card_perm, Nat.factorial_succ]

theorem sum_perm_succ {S : Type u} [AddCommMonoid S] (i : Fin (n + 1))
    (f : Equiv.Perm (Fin (n + 1)) → S) : ∑ σ, f σ = ∑ c, ∑ τ, f (insertAt i c τ) := by
  rw [← (insertAt_bijective i).sum_comp f, Fintype.sum_prod_type]

end MaxPlus
