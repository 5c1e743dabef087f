import MaxPlus.Proofs.Assignment.Reduced
import MaxPlus.Proofs.Matrix.Normal

/-!
The optimal permutation behind a tangible permanent.

If the permanent is tangible and finite, one permutation has a greater sum than all others, and it
selects tangible entries. Its columns are moved to the diagonal and their selected values are taken
off, which leaves a reduced table. In these coordinates Cramer's rule gives the potential of the
right side.
-/

set_option autoImplicit false
set_option relaxedAutoImplicit false

namespace MaxPlus

namespace Grid

open NormalElement

variable {n : ℕ}

def levels (b : Grid NormalElement n 1) (i : Fin n) : WithBot ℤ :=
  level (b i 0)

/-- A permutation with tangible entries and a greater sum than all others. -/
structure Optimal (A : Grid NormalElement n n) where
  choice : Equiv.Perm (Fin n)
  value : Fin n → ℤ
  entry : ∀ i, A i (choice i) = finite (value i) false
  above : ∀ τ, τ ≠ choice → ∑ i, level (A i (τ i)) < ((∑ i, value i : ℤ) : WithBot ℤ)

theorem exists_optimal {A : Grid NormalElement n n} {k : ℤ} (hk : A.permanent = finite k false) :
    ∃ opt : A.Optimal, ∑ i, opt.value i = k := by
  rw [permanent_eq_sum_prod] at hk
  obtain ⟨σ, -, htop, hothers⟩ := exists_top_of_sum_tangible hk
  choose value hvalue using fun i => exists_finite_of_prod_tangible htop i (Finset.mem_univ i)
  have hsum : ((∑ i, value i : ℤ) : WithBot ℤ) = k := by
    rw [← level_finite k false, ← htop, level_prod, WithBot.coe_sum]
    exact Finset.sum_congr rfl fun i _ => by rw [hvalue, level_finite]
  have habove : ∀ τ, τ ≠ σ → ∑ i, level (A i (τ i)) < ((∑ i, value i : ℤ) : WithBot ℤ) := by
    intro τ hτ
    rw [hsum, ← level_prod]
    exact hothers τ (Finset.mem_univ τ) hτ
  exact ⟨⟨σ, value, hvalue, habove⟩, WithBot.coe_injective hsum⟩

namespace Optimal

variable {A : Grid NormalElement n n} (opt : A.Optimal)

def weight (i j : Fin n) : WithBot ℤ :=
  level (A i (opt.choice j)) + ((-opt.value j : ℤ) : WithBot ℤ)

theorem weight_self (i : Fin n) : opt.weight i i = 0 := by
  rw [weight, opt.entry, level_finite, ← WithBot.coe_add, add_neg_cancel, WithBot.coe_zero]

private theorem sum_weight (s : Finset (Fin n)) (π : Equiv.Perm (Fin n)) :
    ∑ r ∈ s, opt.weight r (π r) =
      ∑ r ∈ s, level (A r (opt.choice (π r))) + ((-∑ r ∈ s, opt.value (π r) : ℤ) : WithBot ℤ) := by
  rw [← Finset.sum_neg_distrib, WithBot.coe_sum, ← Finset.sum_add_distrib]
  rfl

private theorem sum_weight_lt (π : Equiv.Perm (Fin n)) (hπ : π ≠ 1) : ∑ i, opt.weight i
    (π i) < 0 := by
  have habove := opt.above (opt.choice * π) fun h => hπ (mul_eq_left.mp h)
  rw [sum_weight, Equiv.sum_comp π opt.value]
  calc _ < ((∑ i, opt.value i : ℤ) : WithBot ℤ) + ((-∑ i, opt.value i : ℤ) : WithBot ℤ) :=
        WithBot.add_lt_add_right WithBot.coe_ne_bot habove
    _ = 0 := by rw [← WithBot.coe_add, add_neg_cancel, WithBot.coe_zero]

def table : ReducedTable (Fin n) :=
  ⟨opt.weight, opt.weight_self, opt.sum_weight_lt⟩

private theorem level_prod_erase (π : Equiv.Perm (Fin n)) {t i : Fin n} (h : π t = i) :
    level (∏ r ∈ Finset.univ.erase t, A r (opt.choice (π r))) =
      opt.table.detour π t + ((∑ r, opt.value r - opt.value i : ℤ) : WithBot ℤ) := by
  have hrest : ∑ r ∈ Finset.univ.erase t, opt.value (π r) = ∑ r, opt.value r - opt.value i := by
    rw [← Equiv.sum_comp π opt.value, ← Finset.add_sum_erase _ _ (Finset.mem_univ t), h]
    omega
  have hdetour : opt.table.detour π t = ∑ r ∈ Finset.univ.erase t, opt.weight r (π r) := rfl
  rw [level_prod, hdetour, sum_weight, hrest, add_assoc, ← WithBot.coe_add, neg_add_cancel,
    WithBot.coe_zero, add_zero]

theorem level_cramer (b : Grid NormalElement n 1) (i : Fin n) :
    level (A.cramer b (∑ r, opt.value r) (opt.choice i) 0) + (opt.value i : WithBot ℤ) =
      opt.table.potential b.levels i := by
  have hsum : A.cramer b (∑ r, opt.value r) (opt.choice i) 0 * finite (opt.value i) false =
      ∑ t, ∑ π : Equiv.Perm (Fin n) with π t = i,
        (∏ r ∈ Finset.univ.erase t, A r (opt.choice (π r))) * b t 0 *
          finite (opt.value i - ∑ r, opt.value r) false := by
    rw [cramer, scale_apply, mul_eq_sum, mul_assoc, finite_mul_finite, Bool.or_self,
      neg_add_eq_sub, Finset.sum_mul]
    refine Finset.sum_congr rfl ?_
    intro t _
    rw [adjoint_eq_sum, Finset.sum_mul, Finset.sum_mul]
    refine (Finset.sum_equiv (Equiv.mulLeft opt.choice) (fun π => ?_) fun π _ => rfl).symm
    simp
  rw [← level_finite (opt.value i) false, ← level_mul, hsum, level_sum, ReducedTable.potential]
  refine Finset.sup_congr rfl ?_
  intro t _
  rw [level_sum]
  refine Finset.sup_congr rfl ?_
  intro π hπ
  have hcancel : ((∑ r, opt.value r - opt.value i : ℤ) : WithBot ℤ) +
      ((opt.value i - ∑ r, opt.value r : ℤ) : WithBot ℤ) = 0 := by
    rw [← WithBot.coe_add, sub_add_sub_cancel, sub_self, WithBot.coe_zero]
  rw [level_mul, level_mul, level_prod_erase opt π (by simpa using hπ), level_finite,
    add_right_comm, add_assoc (opt.table.detour π t), hcancel, add_zero, levels]

end Optimal

end Grid

end MaxPlus
