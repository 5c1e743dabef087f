import MaxPlus.Proofs.Grid.Multiplicative
import MaxPlus.Proofs.Matrix.Cramer

/-!
Systems with their equations and unknowns in another order.

The permanent sums over all permutations, so no order of the rows or columns changes it. By Cramer's
rule an unknown is a ratio of two permanents, one of them with the right side in the column of the
unknown: reordered equations have the same solution, and reordered unknowns the same values in the
new order. A system is singular in every order or in none.
-/

set_option autoImplicit false
set_option relaxedAutoImplicit false

namespace MaxPlus

namespace Grid

universe u

variable {S : Type u} {n : ℕ}

private theorem selectCols_transpose {r k c : ℕ} (A : Grid S r c) (f : Fin k → Fin c) :
    (A.selectCols f).transpose = A.transpose.selectRows f := by
  apply ext
  intro j i
  simp

private theorem scale_selectRows [Mul S] {r k c : ℕ} (A : Grid S r c) (f : Fin k → Fin r) (x : S) :
    (A.selectRows f).scale x = (A.scale x).selectRows f := by
  apply ext
  intro i j
  simp

private theorem withColumn_selectRows (A : Grid S n n) (b : Grid S n 1) (ρ : Equiv.Perm (Fin n))
    (j : Fin n) : (A.selectRows ρ).withColumn j (b.selectRows ρ) =
      (A.withColumn j b).selectRows ρ := by
  apply ext
  intro i k
  simp [withColumn]

private theorem withColumn_selectCols (A : Grid S n n) (b : Grid S n 1) (τ : Equiv.Perm (Fin n))
    (j : Fin n) : (A.selectCols τ).withColumn j b = (A.withColumn (τ j) b).selectCols τ := by
  apply ext
  intro i k
  simp [withColumn]

section Solutions

variable [CommSemiring S]

private theorem permanent_selectCols (A : Grid S n n) (τ : Equiv.Perm (Fin n)) :
    (A.selectCols τ).permanent = A.permanent := by
  rw [← permanent_transpose, selectCols_transpose, permanent_selectRows, permanent_transpose]

private theorem adjoint_selectRows_mul (A : Grid S n n) (b : Grid S n 1) (ρ : Equiv.Perm (Fin n)) :
    (A.selectRows ρ).adjoint.mul (b.selectRows ρ) = A.adjoint.mul b := by
  apply ext
  intro j k
  obtain rfl : k = 0 := Subsingleton.elim k 0
  rw [adjoint_mul_column, adjoint_mul_column, withColumn_selectRows, permanent_selectRows]

private theorem adjoint_selectCols_mul (A : Grid S n n) (b : Grid S n 1) (τ : Equiv.Perm (Fin n)) :
    (A.selectCols τ).adjoint.mul b = (A.adjoint.mul b).selectRows τ := by
  apply ext
  intro j k
  obtain rfl : k = 0 := Subsingleton.elim k 0
  rw [selectRows_apply, adjoint_mul_column, adjoint_mul_column, withColumn_selectCols,
    permanent_selectCols]

end Solutions

private theorem selectRows_elements {r k c : ℕ} (A : Grid NormalElement r c) (f : Fin k → Fin r) :
    A.elements.selectRows f = (A.selectRows f).elements := by
  apply ext
  intro i j
  simp

private theorem selectCols_elements {r k c : ℕ} (A : Grid NormalElement r c) (f : Fin k → Fin c) :
    A.elements.selectCols f = (A.selectCols f).elements := by
  apply ext
  intro i j
  simp

end Grid

namespace Matrix

private theorem solve_matches_of_permanent_eq (plan : Plan) {n : ℕ} {A A' : Grid NormalElement n n}
    {b b' : Grid NormalElement n 1}
    {P : Matrix (Element Exact) → Matrix (Element Exact) → Prop} (h : A'.permanent = A.permanent)
    (hP : ∀ x, P ⟨n, 1, ((A'.adjoint.mul b').scale x).elements⟩
      ⟨n, 1, ((A.adjoint.mul b).scale x).elements⟩) :
    Matches P (solve plan ⟨n, n, A'.elements⟩ ⟨n, 1, b'.elements⟩)
      (solve plan ⟨n, n, A.elements⟩ ⟨n, 1, b.elements⟩) := by
  rw [solve_mk, solve_mk, plan.solve_elements, plan.solve_elements, h]
  split_ifs
  · exact .error _
  · cases A.permanent.tangibleInverse? with
    | none => exact .error _
    | some inverse => exact .ok (hP inverse)

structure Rearranges {W : Type} [Weight W] {n : ℕ} (τ : Equiv.Perm (Fin n))
    (y x : Matrix (Element W)) : Prop where
  shape : y.shape = ⟨n, 1⟩
  shape' : x.shape = ⟨n, 1⟩
  sameAs : ∀ j : Fin n, ∃ a a', y.get? j 0 = some a ∧ x.get? (τ j) 0 = some a' ∧ a.sameAs a' = true

private theorem rearranges_elements {n : ℕ} (τ : Equiv.Perm (Fin n)) (x : Grid NormalElement n 1) :
    Rearranges τ ⟨n, 1, (x.selectRows τ).elements⟩ ⟨n, 1, x.elements⟩ where
  shape := rfl
  shape' := rfl
  sameAs j := by
    refine ⟨_, _, get?_elements (x.selectRows τ) j 0, get?_elements x (τ j) 0, ?_⟩
    rw [NormalElement.sameAs_iff, Grid.selectRows_apply]

/-- No order of rows and columns changes the permanent. Reordered equations have the same solution
or fail in the same way, and reordered unknowns have the solution in their order. -/
theorem solve_of_rearranged (plan : Plan) {n : ℕ} {A : Grid (Element Exact) n n}
    {b : Grid (Element Exact) n 1} (hA : Normal ⟨n, n, A⟩) (hb : Normal ⟨n, 1, b⟩)
    (horder : n ≤ plan.maxOrder) (ρ τ : Equiv.Perm (Fin n)) :
    (∃ p q, permanent plan ⟨n, n, A⟩ = .ok p ∧
      permanent plan ⟨n, n, (A.selectRows ρ).selectCols τ⟩ = .ok q ∧ q.sameAs p = true) ∧
    Matches (fun y x => y.sameAs x = true)
      (solve plan ⟨n, n, A.selectRows ρ⟩ ⟨n, 1, b.selectRows ρ⟩) (solve plan ⟨n, n, A⟩ ⟨n, 1, b⟩) ∧
    Matches (Rearranges τ) (solve plan ⟨n, n, A.selectCols τ⟩ ⟨n, 1, b⟩)
      (solve plan ⟨n, n, A⟩ ⟨n, 1, b⟩) := by
  obtain ⟨A, rfl⟩ := A.exists_elements_eq hA
  obtain ⟨b, rfl⟩ := b.exists_elements_eq hb
  simp only [Grid.selectRows_elements, Grid.selectCols_elements]
  refine ⟨?_, ?_, ?_⟩
  · refine ⟨_, _, permanent_elements plan A horder, permanent_elements plan _ horder, ?_⟩
    rw [NormalElement.sameAs_iff, Grid.permanent_selectCols, Grid.permanent_selectRows]
  · refine solve_matches_of_permanent_eq plan (A.permanent_selectRows ρ) fun x => ?_
    rw [Grid.adjoint_selectRows_mul]
    exact sameAs_elements.mpr rfl
  · refine solve_matches_of_permanent_eq plan (A.permanent_selectCols τ) fun x => ?_
    rw [Grid.adjoint_selectCols_mul, Grid.scale_selectRows]
    exact rearranges_elements τ _

def mixedSystem : Matrix (Element Exact) where
  rows := 3
  cols := 3
  grid := ⟨#v[⟨.int 5, false⟩, ⟨.int 0, true⟩, ⟨.int 1, false⟩,
    ⟨.bot, false⟩, ⟨.int 4, false⟩, ⟨.int 0, false⟩,
    ⟨.int 2, true⟩, ⟨.int 1, false⟩, ⟨.int 3, false⟩]⟩

def mixedSide : Matrix (Element Exact) :=
  ⟨3, 1, ⟨#v[⟨.int 1, false⟩, ⟨.int 2, true⟩, ⟨.int 3, false⟩]⟩⟩

def mixedSolution : Matrix (Element Exact) :=
  ⟨3, 1, ⟨#v[⟨.int (-4), true⟩, ⟨.int (-2), true⟩, ⟨.int 0, false⟩]⟩⟩

theorem solve_of_rearranged_three_rows :
    Normal ⟨3, 3, mixedSystem.grid⟩ ∧ Normal ⟨3, 1, mixedSide.grid⟩ ∧
      3 ≤ Plan.sequential.maxOrder ∧
      solve .sequential ⟨3, 3, mixedSystem.grid⟩ ⟨3, 1, mixedSide.grid⟩ = .ok mixedSolution ∧
      ∃ y z, solve .sequential ⟨3, 3, Grid.selectRows mixedSystem.grid (finRotate 3)⟩
          ⟨3, 1, Grid.selectRows mixedSide.grid (finRotate 3)⟩ = .ok y ∧
        y.sameAs mixedSolution = true ∧
        solve .sequential ⟨3, 3, Grid.selectCols mixedSystem.grid (Equiv.swap 0 2)⟩
          ⟨3, 1, mixedSide.grid⟩ = .ok z ∧
        Rearranges (Equiv.swap (0 : Fin 3) 2) z mixedSolution := by
  have hA : Normal ⟨3, 3, mixedSystem.grid⟩ := by decide
  have hb : Normal ⟨3, 1, mixedSide.grid⟩ := by decide
  have hsolve : solve .sequential ⟨3, 3, mixedSystem.grid⟩ ⟨3, 1, mixedSide.grid⟩ =
      .ok mixedSolution := by cbv
  obtain ⟨-, hrows, hcols⟩ := solve_of_rearranged .sequential hA hb (by decide) (finRotate 3)
    (Equiv.swap 0 2)
  rw [hsolve] at hrows hcols
  obtain ⟨y, hy, hsame⟩ := hrows.flip.follows _ rfl
  obtain ⟨z, hz, hrearranged⟩ := hcols.flip.follows _ rfl
  exact ⟨hA, hb, by decide, hsolve, y, z, hy, hsame, hz, hrearranged⟩

end Matrix

end MaxPlus
