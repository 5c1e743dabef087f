import MaxPlus.Proofs.Grid.Transpose
import MaxPlus.Proofs.Matrix.Normal

/-!
The adjoint of a matrix, entry by entry and as a factor.

The permutations that send `j` to `i` select an entry in every row other than `j`, and entry
`(i, j)` of the adjoint is the sum of what they select. A matrix times its adjoint, in either order,
is a multiple of the identity up to ghosts: the permanent stands on the diagonal with its mark, and
every other entry is a ghost or `-∞`.
-/

set_option autoImplicit false
set_option relaxedAutoImplicit false

namespace MaxPlus

namespace NormalElement

end NormalElement

namespace Grid

end Grid

namespace Matrix

/-- A square matrix with one element on its diagonal, and ghosts or `-∞` elsewhere. -/
structure ScalarUpToGhosts {W : Type} [Weight W] (M : Matrix (Element W)) (n : ℕ)
    (p : Element W) : Prop where
  shape : M.shape = ⟨n, n⟩
  diagonal : ∀ i < n, ∃ a, M.get? i i = some a ∧ a.sameAs p = true
  elsewhere : ∀ i < n, ∀ j < n, i ≠ j →
    ∃ a, M.get? i j = some a ∧ (a.ghost = true ∨ a.isZero = true)

theorem get?_elements {r c : ℕ} (A : Grid NormalElement r c) (i : Fin r) (j : Fin c) :
    get? ⟨r, c, A.elements⟩ i j = some (A i j).1 := by
  rw [get?, dif_pos ⟨i.isLt, j.isLt⟩, Grid.elements_apply]

private theorem scalarUpToGhosts_elements {n : ℕ} {M : Grid NormalElement n n} {p : NormalElement}
    (hdiag : ∀ i, M i i = p) (hother : ∀ i j, i ≠ j → ∃ s, M i j = s + s) :
    ScalarUpToGhosts ⟨n, n, M.elements⟩ n p.1 where
  shape := rfl
  diagonal i hi := by
    refine ⟨_, get?_elements M ⟨i, hi⟩ ⟨i, hi⟩, ?_⟩
    rw [hdiag]
    exact NormalElement.sameAs_iff.mpr rfl
  elsewhere i hi j hj hne := by
    refine ⟨_, get?_elements M ⟨i, hi⟩ ⟨j, hj⟩, ?_⟩
    obtain ⟨s, hs⟩ := hother ⟨i, hi⟩ ⟨j, hj⟩ fun h => hne (congrArg Fin.val h)
    rw [hs]
    exact NormalElement.ghostly_iff.mp (NormalElement.ghostly_add_self s)

/-- The adjoint is an inverse on both sides, up to ghosts and to the permanent. -/
theorem mul_adjoint_scalarUpToGhosts (plan : Plan) {A : Matrix (Element Exact)} (hA : A.Normal)
    (hsquare : A.cols = A.rows) (horder : A.rows ≤ plan.maxOrder) :
    ∃ adj p left right, A.adjoint plan = .ok adj ∧ A.permanent plan = .ok p ∧
      A.mul adj = .ok left ∧ left.ScalarUpToGhosts A.rows p ∧
      adj.mul A = .ok right ∧ right.ScalarUpToGhosts A.rows p := by
  obtain ⟨n, B, rfl⟩ := exists_eq_elements_of_square hA hsquare
  refine ⟨_, _, _, _, adjoint_elements plan B horder, permanent_elements plan B horder,
    mul_elements B B.adjoint, ?_, mul_elements B.adjoint B, ?_⟩
  · exact scalarUpToGhosts_elements B.mul_adjoint_self fun _ _ => B.mul_adjoint_of_ne
  · exact scalarUpToGhosts_elements B.adjoint_mul_self fun _ _ => B.adjoint_mul_of_ne

def upperTriangle : Matrix (Element Exact) :=
  ⟨2, 2, ⟨#v[⟨.int 3, false⟩, ⟨.int 1, true⟩, ⟨.bot, false⟩, ⟨.int 2, false⟩]⟩⟩

theorem mul_adjoint_scalarUpToGhosts_triangle :
    upperTriangle.Normal ∧ upperTriangle.cols = upperTriangle.rows ∧
      upperTriangle.rows ≤ Plan.sequential.maxOrder ∧
      ∃ adj left right, upperTriangle.adjoint .sequential = .ok adj ∧
        adj.grid.toList = [⟨.int 2, false⟩, ⟨.int 1, true⟩, ⟨.bot, false⟩, ⟨.int 3, false⟩] ∧
        upperTriangle.mul adj = .ok left ∧ left.ScalarUpToGhosts 2 ⟨.int 5, false⟩ ∧
        adj.mul upperTriangle = .ok right ∧ right.ScalarUpToGhosts 2 ⟨.int 5, false⟩ := by
  have hpermanent : upperTriangle.permanent .sequential = .ok ⟨.int 5, false⟩ := by cbv
  have hadjoint : upperTriangle.adjoint .sequential = .ok
      ⟨2, 2, ⟨#v[⟨.int 2, false⟩, ⟨.int 1, true⟩, ⟨.bot, false⟩, ⟨.int 3, false⟩]⟩⟩ := by cbv
  obtain ⟨adj, p, left, right, hadj, hp, hleft, hscalar, hright, hscalar'⟩ :=
    mul_adjoint_scalarUpToGhosts .sequential (A := upperTriangle) (by decide) rfl (by decide)
  obtain rfl := Except.ok.inj (hpermanent.symm.trans hp)
  obtain rfl := Except.ok.inj (hadjoint.symm.trans hadj)
  exact ⟨by decide, rfl, by decide, _, left, right, hadj, rfl, hleft, hscalar, hright, hscalar'⟩

end Matrix

end MaxPlus
