import MaxPlus.Proofs.Element.Surpassing
import MaxPlus.Proofs.Matrix.Cramer

/-!
Solving for what was multiplied.

The adjoint times the matrix has the permanent on its diagonal and ghosts or `-∞` elsewhere. So the
solution of a system whose right side is the image of a column is this column plus something
ghostly.
-/

set_option autoImplicit false
set_option relaxedAutoImplicit false

namespace MaxPlus

namespace Grid

open NormalElement

variable {n : ℕ}

private theorem cramer_mul_apply (A : Grid NormalElement n n) (x : Grid NormalElement n 1) (k : ℤ)
    (i : Fin n) :
    A.cramer (A.mul x) k i 0 = ∑ s, A.adjoint.mul A i s * (x s 0 * finite (-k) false) := by
  rw [cramer, ← Grid.mul_assoc, ← mul_scale, mul_eq_sum]
  simp only [scale_apply]

private theorem cramer_mul_surpasses {A : Grid NormalElement n n} {k : ℤ}
    (hk : A.permanent = finite k false) (x : Grid NormalElement n 1) (i : Fin n) :
    Surpasses (A.cramer (A.mul x) k i 0) (x i 0) := by
  rw [cramer_mul_apply]
  exact exists_sum_mul_inverse_eq_add (fun i => (A.adjoint_mul_self i).trans hk)
    (fun _ _ => A.adjoint_mul_of_ne) x i

end Grid

namespace Matrix

open NormalElement

/-- Where the permanent is tangible and finite, the system with the image of `x` on its right side
has a solution, and the solution ghost-surpasses `x`. -/
theorem solve_mul_ghostSurpasses (plan : Plan) {n : ℕ} {A : Grid (Element Exact) n n}
    {x : Grid (Element Exact) n 1} {p : Element Exact} (hA : Normal ⟨n, n, A⟩)
    (hx : Normal ⟨n, 1, x⟩) (horder : n ≤ plan.maxOrder)
    (hp : permanent plan ⟨n, n, A⟩ = .ok p) (htangible : p.isTangible = true)
    (hfinite : p.isZero = false) :
    ∃ b y, mul ⟨n, n, A⟩ ⟨n, 1, x⟩ = .ok b ∧ solve plan ⟨n, n, A⟩ b = .ok y ∧
      y.ghostSurpasses ⟨n, 1, x⟩ = true := by
  obtain ⟨A, rfl⟩ := A.exists_elements_eq hA
  obtain ⟨x, rfl⟩ := x.exists_elements_eq hx
  rw [permanent_elements plan A horder] at hp
  cases hp
  have hghost : ¬ Ghostly A.permanent := by
    rw [ghostly_iff, hfinite, not_or]
    exact ⟨by simpa [Element.isTangible] using htangible, Bool.false_ne_true⟩
  obtain ⟨k, hk⟩ := not_ghostly_iff.mp hghost
  have hsolve : plan.solve A.elements (A.mul x).elements = .ok (A.cramer (A.mul x) k).elements :=
    plan.solve_elements_eq_ok.mpr ⟨horder, k, hk, rfl⟩
  refine ⟨_, ⟨n, 1, (A.cramer (A.mul x) k).elements⟩, mul_elements A x, ?_, ?_⟩
  · rw [solve_mk, hsolve]
    rfl
  · rw [ghostSurpasses, related_column_iff]
    intro i
    rw [Grid.elements_apply, Grid.elements_apply, surpasses_iff]
    exact Grid.cramer_mul_surpasses hk x i

def markedColumn : Matrix (Element Exact) :=
  ⟨2, 1, ⟨#v[⟨.int 1, false⟩, ⟨.int 3, true⟩]⟩⟩

theorem solve_mul_ghostSurpasses_two_rows :
    Normal ⟨2, 2, markedSystem.grid⟩ ∧ Normal ⟨2, 1, markedColumn.grid⟩ ∧
      2 ≤ Plan.sequential.maxOrder ∧
      permanent .sequential ⟨2, 2, markedSystem.grid⟩ = .ok ⟨.int 2, false⟩ ∧
      ∃ b y, mul ⟨2, 2, markedSystem.grid⟩ ⟨2, 1, markedColumn.grid⟩ = .ok b ∧
        b.toList = [⟨.int 4, true⟩, ⟨.int 5, true⟩] ∧
        solve .sequential ⟨2, 2, markedSystem.grid⟩ b = .ok y ∧
        y.toList = [⟨.int 4, true⟩, ⟨.int 3, true⟩] ∧
        y.ghostSurpasses ⟨2, 1, markedColumn.grid⟩ = true := by
  have hpermanent : permanent .sequential ⟨2, 2, markedSystem.grid⟩ = .ok ⟨.int 2, false⟩ := by cbv
  have hmul : mul ⟨2, 2, markedSystem.grid⟩ ⟨2, 1, markedColumn.grid⟩ =
      .ok ⟨2, 1, ⟨#v[⟨.int 4, true⟩, ⟨.int 5, true⟩]⟩⟩ := by cbv
  have hsolve : solve .sequential ⟨2, 2, markedSystem.grid⟩
      ⟨2, 1, ⟨#v[⟨.int 4, true⟩, ⟨.int 5, true⟩]⟩⟩ = .ok markedSolution := by cbv
  obtain ⟨b, y, hb, hy, hsurpasses⟩ := solve_mul_ghostSurpasses .sequential (by decide)
    (x := markedColumn.grid) (by decide) (by decide) hpermanent rfl rfl
  obtain rfl := Except.ok.inj (hmul.symm.trans hb)
  obtain rfl := Except.ok.inj (hsolve.symm.trans hy)
  exact ⟨by decide, by decide, by decide, hpermanent, _, _, hb, rfl, hy, rfl, hsurpasses⟩

end Matrix

end MaxPlus
