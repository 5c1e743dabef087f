import MaxPlus.Proofs.Matrix.Adjoint
import MaxPlus.Proofs.Matrix.Soundness

/-!
Each unknown of a solved system as a ratio of two permanents.

Expanded along one column, the permanent of the grid with the right side in that column is an entry
of the adjoint times the right side. So the unknown of the column is this permanent over the one of
the system, with its mark.
-/

set_option autoImplicit false
set_option relaxedAutoImplicit false

namespace MaxPlus

namespace Grid

universe u

variable {S : Type u} {n : ℕ}

def withColumn (A : Grid S n n) (j : Fin n) (b : Grid S n 1) : Grid S n n :=
  ofFn fun r c => if c = j then b r ⟨0, Nat.one_pos⟩ else A r c

private theorem withColumn_transpose (A : Grid S n n) (j : Fin n) (b : Grid S n 1) :
    (A.withColumn j b).transpose = A.transpose.withRow j fun r => b r 0 := by
  apply ext
  intro c r
  simp [withColumn, withRow]

private theorem withColumn_elements (A : Grid NormalElement n n) (j : Fin n)
    (b : Grid NormalElement n 1) :
    A.elements.withColumn j b.elements = (A.withColumn j b).elements := by
  apply ext
  intro r c
  simp only [withColumn, ofFn_apply, elements_apply]
  split_ifs <;> rfl

theorem adjoint_mul_column [CommSemiring S] (A : Grid S n n) (b : Grid S n 1) (j : Fin n) :
    A.adjoint.mul b j 0 = (A.withColumn j b).permanent := by
  cases n with
  | zero => exact j.elim0
  | succ n =>
    rw [← permanent_transpose, withColumn_transpose, ← sum_mul_permanent_minor_of_row, mul_eq_sum]
    refine Finset.sum_congr rfl ?_
    intro r _
    rw [adjoint_apply, minor_transpose, permanent_transpose, mul_comm]

end Grid

namespace Matrix

open NormalElement

/-- Every unknown is the permanent of the matrix with the right side in the column of the unknown,
times the inverse of the permanent of the matrix. -/
theorem solve_eq_ratio_of_permanents (plan : Plan) {n : ℕ} {A : Grid (Element Exact) n n}
    {b : Grid (Element Exact) n 1} {x : Matrix (Element Exact)} (hA : Normal ⟨n, n, A⟩)
    (hb : Normal ⟨n, 1, b⟩) (hx : solve plan ⟨n, n, A⟩ ⟨n, 1, b⟩ = .ok x) (j : Fin n) :
    ∃ a p q inverse r, x.get? j 0 = some a ∧ permanent plan ⟨n, n, A⟩ = .ok p ∧
      permanent plan ⟨n, n, A.withColumn j b⟩ = .ok q ∧ p.inverse? = some inverse ∧
      q.mul inverse = .ok r ∧ a.sameAs r = true := by
  obtain ⟨m, A, b, k, hA', hb', horder, hk, rfl⟩ := exists_of_solve_eq_ok hA hb hx
  cases hA'
  cases hb'
  refine ⟨_, _, (A.withColumn j b).permanent.1, (finite (-k) false).1, _,
    get?_elements (A.cramer b k) j 0, permanent_elements plan A horder, ?_, ?_,
    Element.mul_eq_ok _ _, ?_⟩
  · rw [Grid.withColumn_elements]
    exact permanent_elements plan (A.withColumn j b) horder
  · rw [hk]
    rfl
  · rw [← toElement_mul, sameAs_iff, Grid.cramer, Grid.scale_apply, Grid.adjoint_mul_column]

def markedSolution : Matrix (Element Exact) :=
  ⟨2, 1, ⟨#v[⟨.int 4, true⟩, ⟨.int 3, true⟩]⟩⟩

theorem solve_eq_ratio_of_permanents_two_rows :
    Normal ⟨2, 2, markedSystem.grid⟩ ∧ Normal ⟨2, 1, markedSide.grid⟩ ∧
      solve .sequential ⟨2, 2, markedSystem.grid⟩ ⟨2, 1, markedSide.grid⟩ = .ok markedSolution ∧
      permanent .sequential ⟨2, 2, Grid.withColumn markedSystem.grid 0 markedSide.grid⟩ =
        .ok ⟨.int 6, true⟩ ∧
      ∃ a p q inverse r, markedSolution.get? (0 : Fin 2) 0 = some a ∧
        permanent .sequential ⟨2, 2, markedSystem.grid⟩ = .ok p ∧
        permanent .sequential ⟨2, 2, Grid.withColumn markedSystem.grid 0 markedSide.grid⟩ =
          .ok q ∧
        p.inverse? = some inverse ∧ q.mul inverse = .ok r ∧ a.sameAs r = true := by
  have hsolve : solve .sequential ⟨2, 2, markedSystem.grid⟩ ⟨2, 1, markedSide.grid⟩ =
      .ok markedSolution := by cbv
  exact ⟨by decide, by decide, hsolve, by cbv,
    solve_eq_ratio_of_permanents .sequential (by decide) (by decide) hsolve 0⟩

end Matrix

end MaxPlus
