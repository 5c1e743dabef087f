import MaxPlus.Proofs.Element.Surpassing
import MaxPlus.Proofs.Matrix.Soundness

/-!
Ghost surpassing is kept by the operations on matrices.

Products, permanents and adjoints are built from sums and products of the entries, so those of a
matrix surpass those of a matrix that it surpasses. A system that can be solved has a tangible
finite permanent, which surpasses itself alone. So every system that it surpasses can be solved,
with the same permanent, and the first solution surpasses the second.
-/

set_option autoImplicit false
set_option relaxedAutoImplicit false

namespace MaxPlus

namespace Grid

open NormalElement

variable {n : ℕ}

private theorem cramer_surpasses {A A' : Grid NormalElement n n} {b b' : Grid NormalElement n 1}
    (hA : ∀ i j, Surpasses (A i j) (A' i j)) (hb : ∀ i j, Surpasses (b i j) (b' i j)) (k : ℤ)
    (i : Fin n) (j : Fin 1) : Surpasses (A.cramer b k i j) (A'.cramer b' k i j) :=
  scale_related Surpasses.respects
    (mul_related Surpasses.respects (adjoint_related Surpasses.respects hA) hb) (.refl _) i j

end Grid

namespace Matrix

open NormalElement

structure Surpasses (A A' : Matrix (Element Exact)) : Prop where
  normal : A.Normal
  normal' : A'.Normal
  surpasses : A.ghostSurpasses A' = true

theorem ghostSurpasses_elements {r c : ℕ} {A A' : Grid NormalElement r c} :
    ghostSurpasses ⟨r, c, A.elements⟩ ⟨r, c, A'.elements⟩ = true ↔
      ∀ i j, (A i j).Surpasses (A' i j) := by
  rw [ghostSurpasses, related_mk, Grid.related_iff]
  simp only [Grid.elements_apply, surpasses_iff]

private theorem Surpasses.exists_elements {r c : ℕ} {A : Grid NormalElement r c}
    {A' : Matrix (Element Exact)} (h : Surpasses ⟨r, c, A.elements⟩ A') :
    ∃ B : Grid NormalElement r c, A' = ⟨r, c, B.elements⟩ ∧ ∀ i j, (A i j).Surpasses (B i j) := by
  obtain ⟨-, hnormal, hsurpasses⟩ := h
  obtain ⟨r, c, C, C', hC, rfl, -⟩ := exists_grids_of_related hsurpasses
  cases hC
  obtain ⟨B, rfl⟩ := C'.exists_elements_eq hnormal
  exact ⟨B, rfl, ghostSurpasses_elements.mp hsurpasses⟩

private theorem solve_keeps_ghostSurpasses {plan : Plan} {A A' b b' x : Matrix (Element Exact)}
    (hA : A.Surpasses A') (hb : b.Surpasses b') (hx : A.solve plan b = .ok x) :
    ∃ x' p p', A'.solve plan b' = .ok x' ∧ A.permanent plan = .ok p ∧ A'.permanent plan = .ok p' ∧
      p.sameAs p' = true ∧ x.ghostSurpasses x' = true := by
  obtain ⟨n, A, b, k, rfl, rfl, horder, hk, rfl⟩ := exists_of_solve_eq_ok hA.normal hb.normal hx
  obtain ⟨A', rfl, hentries⟩ := hA.exists_elements
  obtain ⟨b', rfl, hside⟩ := hb.exists_elements
  have hk' : A'.permanent = finite k false := by
    have hpermanent := Grid.permanent_related NormalElement.Surpasses.respects hentries
    rw [hk] at hpermanent
    exact hpermanent.eq_of_tangible
  have hsolve : plan.solve A'.elements b'.elements = .ok (A'.cramer b' k).elements :=
    plan.solve_elements_eq_ok.mpr ⟨horder, k, hk', rfl⟩
  refine ⟨⟨n, 1, (A'.cramer b' k).elements⟩, _, _, ?_, permanent_elements plan A horder,
    permanent_elements plan A' horder, ?_, ?_⟩
  · rw [solve_mk, hsolve]
    rfl
  · rw [sameAs_iff, hk, hk']
  · exact ghostSurpasses_elements.mpr (Grid.cramer_surpasses hentries hside k)

/-- Products, permanents and adjoints of matrices surpass those of the matrices surpassed. A system
that surpasses another and can be solved has the same permanent as the other, and its solution
surpasses the solution of the other. -/
theorem operations_keep_ghostSurpasses (plan : Plan) {A A' : Matrix (Element Exact)}
    (hA : A.Surpasses A') :
    (∀ {B B'}, Surpasses B B' → A.cols = B.rows →
      ∃ C C', A.mul B = .ok C ∧ A'.mul B' = .ok C' ∧ C.ghostSurpasses C' = true) ∧
    (A.cols = A.rows → A.rows ≤ plan.maxOrder →
      ∃ p p' adj adj', A.permanent plan = .ok p ∧ A'.permanent plan = .ok p' ∧
        p.ghostSurpasses p' = true ∧ A.adjoint plan = .ok adj ∧ A'.adjoint plan = .ok adj' ∧
        adj.ghostSurpasses adj' = true) ∧
    ∀ {b b' x}, Surpasses b b' → A.solve plan b = .ok x →
      ∃ x' p p', A'.solve plan b' = .ok x' ∧ A.permanent plan = .ok p ∧
        A'.permanent plan = .ok p' ∧ p.sameAs p' = true ∧ x.ghostSurpasses x' = true := by
  refine ⟨?_, ?_, fun hb hx => solve_keeps_ghostSurpasses hA hb hx⟩
  · intro B B' hB hshape
    obtain ⟨r, k, A⟩ := A
    obtain ⟨k', c, B⟩ := B
    obtain rfl : k = k' := hshape
    obtain ⟨A, rfl⟩ := A.exists_elements_eq hA.normal
    obtain ⟨B, rfl⟩ := B.exists_elements_eq hB.normal
    obtain ⟨A', rfl, hleft⟩ := hA.exists_elements
    obtain ⟨B', rfl, hright⟩ := hB.exists_elements
    exact ⟨_, _, mul_elements A B, mul_elements A' B',
      ghostSurpasses_elements.mpr (Grid.mul_related NormalElement.Surpasses.respects hleft hright)⟩
  · intro hsquare horder
    obtain ⟨n, A, rfl⟩ := exists_eq_elements_of_square hA.normal hsquare
    obtain ⟨A', rfl, hentries⟩ := hA.exists_elements
    have hpermanent := Grid.permanent_related NormalElement.Surpasses.respects hentries
    have hadjoint := Grid.adjoint_related NormalElement.Surpasses.respects hentries
    exact ⟨_, _, _, _, permanent_elements plan A horder, permanent_elements plan A' horder,
      surpasses_iff.mpr hpermanent, adjoint_elements plan A horder,
      adjoint_elements plan A' horder, ghostSurpasses_elements.mpr hadjoint⟩

def plainSystem : Matrix (Element Exact) :=
  ⟨2, 2, ⟨#v[⟨.int 0, false⟩, ⟨.int (-5), false⟩, ⟨.bot, false⟩, ⟨.int 2, false⟩]⟩⟩

def plainSide : Matrix (Element Exact) :=
  ⟨2, 1, ⟨#v[⟨.int 3, false⟩, ⟨.int 4, false⟩]⟩⟩

theorem operations_keep_ghostSurpasses_two_rows :
    markedSystem.Surpasses plainSystem ∧ markedSide.Surpasses plainSide ∧
      (∃ C C', markedSystem.mul markedSide = .ok C ∧ plainSystem.mul plainSide = .ok C' ∧
        C.ghostSurpasses C' = true) ∧
      (∃ adj adj', markedSystem.adjoint .sequential = .ok adj ∧
        plainSystem.adjoint .sequential = .ok adj' ∧ adj.ghostSurpasses adj' = true) ∧
      ∃ x x', markedSystem.solve .sequential markedSide = .ok x ∧
        x.toList = [⟨.int 4, true⟩, ⟨.int 3, true⟩] ∧
        plainSystem.solve .sequential plainSide = .ok x' ∧
        x'.toList = [⟨.int 3, false⟩, ⟨.int 2, false⟩] ∧ x.ghostSurpasses x' = true := by
  have hA : markedSystem.Surpasses plainSystem := ⟨by decide, by decide, by cbv⟩
  have hb : markedSide.Surpasses plainSide := ⟨by decide, by decide, by cbv⟩
  have hsolve : markedSystem.solve .sequential markedSide =
      .ok ⟨2, 1, ⟨#v[⟨.int 4, true⟩, ⟨.int 3, true⟩]⟩⟩ := by cbv
  have hsolve' : plainSystem.solve .sequential plainSide =
      .ok ⟨2, 1, ⟨#v[⟨.int 3, false⟩, ⟨.int 2, false⟩]⟩⟩ := by cbv
  obtain ⟨hmul, hsquare, hsolution⟩ := operations_keep_ghostSurpasses .sequential hA
  obtain ⟨-, -, adj, adj', -, -, -, hadj, hadj', hsurpasses⟩ := hsquare rfl (by decide)
  obtain ⟨x', -, -, hx', -, -, -, hx⟩ := hsolution hb hsolve
  obtain rfl := Except.ok.inj (hsolve'.symm.trans hx')
  exact ⟨hA, hb, hmul hb rfl, ⟨adj, adj', hadj, hadj', hsurpasses⟩, _, _, hsolve, rfl, hsolve',
    rfl, hx⟩

end Matrix

end MaxPlus
