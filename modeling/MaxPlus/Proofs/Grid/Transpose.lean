import MaxPlus.Proofs.Grid.Adjoint

/-!
Transposed grids over a commutative semiring.

A permutation of the rows is the inverse of one of the columns, so the permanent stays as it is, and
the adjoint is transposed along. A column of the adjoint times a row of the grid is then a row of
the transposed grid times a column of its adjoint.
-/

set_option autoImplicit false
set_option relaxedAutoImplicit false

namespace MaxPlus

namespace Grid

universe u

variable {S : Type u} {n : ℕ}

theorem transpose_transpose {r c : ℕ} (A : Grid S r c) : A.transpose.transpose = A := by
  apply ext
  intro i j
  simp

theorem minor_transpose {r c : ℕ} (A : Grid S (r + 1) (c + 1)) (i : Fin (r + 1))
    (j : Fin (c + 1)) : A.transpose.minor j i = (A.minor i j).transpose := by
  apply ext
  intro q p
  simp

variable [CommSemiring S]

theorem permanent_transpose (A : Grid S n n) : A.transpose.permanent = A.permanent := by
  rw [permanent_eq_sum_prod, permanent_eq_sum_prod]
  refine Fintype.sum_equiv (Equiv.inv (Equiv.Perm (Fin n))) _ _ ?_
  intro σ
  refine Fintype.prod_equiv σ _ _ ?_
  intro i
  rw [transpose_apply, Equiv.inv_apply, Equiv.Perm.inv_def, σ.symm_apply_apply]

theorem adjoint_transpose (A : Grid S n n) : A.transpose.adjoint = A.adjoint.transpose := by
  cases n with
  | zero =>
    apply ext
    intro i
    exact i.elim0
  | succ n =>
    apply ext
    intro i j
    rw [adjoint_apply, transpose_apply, adjoint_apply, minor_transpose, permanent_transpose]

private theorem mul_transpose {r k c : ℕ} (A : Grid S r k) (B : Grid S k c) :
    (A.mul B).transpose = B.transpose.mul A.transpose := by
  apply ext
  intro j i
  simp only [transpose_apply, mul_eq_sum, mul_comm]

private theorem adjoint_mul_apply (A : Grid S n n) (i k : Fin n) :
    A.adjoint.mul A i k = A.transpose.mul A.transpose.adjoint k i := by
  rw [adjoint_transpose, ← mul_transpose, transpose_apply]

theorem adjoint_mul_self (A : Grid S n n) (i : Fin n) : A.adjoint.mul A i i = A.permanent := by
  rw [adjoint_mul_apply, mul_adjoint_self, permanent_transpose]

theorem adjoint_mul_of_ne (A : Grid S n n) {i k : Fin n} (hne : i ≠ k) :
    ∃ s, A.adjoint.mul A i k = s + s := by
  rw [adjoint_mul_apply]
  exact A.transpose.mul_adjoint_of_ne hne.symm

end Grid

end MaxPlus
