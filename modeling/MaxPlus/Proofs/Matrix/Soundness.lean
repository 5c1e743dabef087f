import MaxPlus.Proofs.Matrix.Normal

/-!
What Cramer's rule solves.

The product of a matrix and its adjoint has the permanent on its diagonal and sums of equal pairs
elsewhere. So the left side of a solved system is the right side plus something ghostly, whatever
ghosts and `-∞` entries the system has.
-/

set_option autoImplicit false
set_option relaxedAutoImplicit false

namespace MaxPlus

namespace Grid

open NormalElement

variable {n : ℕ}

private theorem mul_cramer_apply (A : Grid NormalElement n n) (b : Grid NormalElement n 1) (k : ℤ)
    (i : Fin n) :
    A.mul (A.cramer b k) i 0 = ∑ s, A.mul A.adjoint i s * (b s 0 * finite (-k) false) := by
  rw [cramer, ← mul_scale, ← Grid.mul_assoc, mul_eq_sum]
  simp only [scale_apply]

theorem exists_sum_mul_inverse_eq_add {M : Grid NormalElement n n} {k : ℤ}
    (hdiag : ∀ i, M i i = finite k false) (hother : ∀ i s, i ≠ s → ∃ t, M i s = t + t)
    (b : Grid NormalElement n 1) (i : Fin n) :
    ∃ g, Ghostly g ∧ ∑ s, M i s * (b s 0 * finite (-k) false) = b i 0 + g := by
  have hself : M i i * (b i 0 * finite (-k) false) = b i 0 := by
    rw [hdiag, mul_left_comm, finite_mul_finite, add_neg_cancel, Bool.or_false, ← one_eq_finite,
      mul_one]
  have hghostly : ∀ s ∈ Finset.univ.erase i, Ghostly (M i s * (b s 0 * finite (-k) false)) := by
    intro s hs
    obtain ⟨t, ht⟩ := hother i s (Finset.ne_of_mem_erase hs).symm
    rw [ht]
    exact (ghostly_add_self t).mul_right _
  refine ⟨_, Ghostly.sum hghostly, ?_⟩
  rw [← Finset.add_sum_erase _ _ (Finset.mem_univ i), hself]

/-- Each row of the left side is the right side plus something ghostly. -/
private theorem exists_mul_cramer_eq_add {A : Grid NormalElement n n} {k : ℤ}
    (hk : A.permanent = finite k false) (b : Grid NormalElement n 1) (i : Fin n) :
    ∃ g, Ghostly g ∧ A.mul (A.cramer b k) i 0 = b i 0 + g := by
  rw [mul_cramer_apply]
  exact exists_sum_mul_inverse_eq_add (fun i => (A.mul_adjoint_self i).trans hk)
    (fun _ _ => A.mul_adjoint_of_ne) b i

end Grid

namespace Matrix

/-- A solution of a system solves it: the left side ghost-surpasses the right one. -/
theorem solve_ghostSurpasses (plan : Plan) {A b x : Matrix (Element Exact)} (hA : A.Normal)
    (hb : b.Normal) (hx : A.solve plan b = .ok x) :
    x.shape = ⟨A.rows, 1⟩ ∧ ∃ y, A.mul x = .ok y ∧ y.ghostSurpasses b = true := by
  obtain ⟨n, A, b, k, rfl, rfl, -, hk, rfl⟩ := exists_of_solve_eq_ok hA hb hx
  refine ⟨rfl, _, mul_elements A (A.cramer b k), ?_⟩
  rw [ghostSurpasses, related_column_iff]
  intro i
  obtain ⟨g, hg, hrow⟩ := Grid.exists_mul_cramer_eq_add hk b i
  rw [Grid.elements_apply, Grid.elements_apply, hrow]
  exact NormalElement.ghostSurpasses_add_ghostly (b i 0) hg

def markedSystem : Matrix (Element Exact) :=
  ⟨2, 2, ⟨#v[⟨.int 0, false⟩, ⟨.int 1, true⟩, ⟨.bot, false⟩, ⟨.int 2, false⟩]⟩⟩

def markedSide : Matrix (Element Exact) :=
  ⟨2, 1, ⟨#v[⟨.int 3, false⟩, ⟨.int 5, true⟩]⟩⟩

theorem solve_ghostSurpasses_two_rows :
    markedSystem.Normal ∧ markedSide.Normal ∧
      markedSystem.solve .sequential markedSide =
        .ok ⟨2, 1, ⟨#v[⟨.int 4, true⟩, ⟨.int 3, true⟩]⟩⟩ ∧
      ∃ y, markedSystem.mul ⟨2, 1, ⟨#v[⟨.int 4, true⟩, ⟨.int 3, true⟩]⟩⟩ = .ok y ∧
        y.ghostSurpasses markedSide = true :=
  ⟨by decide, by decide, by cbv,
    (solve_ghostSurpasses .sequential (by decide) (by decide) (by cbv)).2⟩

end Matrix

end MaxPlus
