import MaxPlus.Proofs.Grid.Multiplicative
import MaxPlus.Proofs.Matrix.Surpassing

/-!
The permanent and the adjoint of a product of matrices of elements.

Over the elements a sum of equal pairs is a ghost or `-∞`, so the permanent of a product surpasses
the product of the permanents. It is the product where nothing ties. In the same way the adjoint of
a product surpasses the product of the adjoints in the other order.
-/

set_option autoImplicit false
set_option relaxedAutoImplicit false

namespace MaxPlus

namespace Grid

open NormalElement

variable {n : ℕ}

private theorem permanent_mul_surpasses (A B : Grid NormalElement n n) :
    Surpasses (A.mul B).permanent (A.permanent * B.permanent) := by
  obtain ⟨s, hs⟩ := exists_permanent_mul_eq_add A B
  exact ⟨s + s, ghostly_add_self s, hs⟩

private theorem adjoint_mul_surpasses (A B : Grid NormalElement n n) (i j : Fin n) :
    Surpasses ((A.mul B).adjoint i j) (B.adjoint.mul A.adjoint i j) := by
  obtain ⟨s, hs⟩ := exists_adjoint_mul_eq_add A B i j
  exact ⟨s + s, ghostly_add_self s, hs⟩

end Grid

namespace Matrix

open NormalElement

/-- The permanent of a product ghost-surpasses the product of the permanents. If it is tangible and
finite, the two are the same. -/
theorem permanent_mul_ghostSurpasses (plan : Plan) {n : ℕ} {A B : Grid (Element Exact) n n}
    (hA : Normal ⟨n, n, A⟩) (hB : Normal ⟨n, n, B⟩) (horder : n ≤ plan.maxOrder) :
    ∃ C p q r s, mul ⟨n, n, A⟩ ⟨n, n, B⟩ = .ok C ∧ permanent plan ⟨n, n, A⟩ = .ok p ∧
      permanent plan ⟨n, n, B⟩ = .ok q ∧ C.permanent plan = .ok r ∧ p.mul q = .ok s ∧
      r.ghostSurpasses s = true ∧
      (r.isTangible = true → r.isZero = false → r.sameAs s = true) := by
  obtain ⟨A, rfl⟩ := A.exists_elements_eq hA
  obtain ⟨B, rfl⟩ := B.exists_elements_eq hB
  have hsurpasses := A.permanent_mul_surpasses B
  refine ⟨_, _, _, _, _, mul_elements A B, permanent_elements plan A horder,
    permanent_elements plan B horder, permanent_elements plan (A.mul B) horder,
    Element.mul_eq_ok _ _, surpasses_iff.mpr hsurpasses, fun htangible hfinite => ?_⟩
  rw [← toElement_mul, sameAs_iff]
  rcases eq_zero_or_finite_of_tangible htangible with hzero | ⟨k, hk⟩
  · rw [hzero] at hfinite
    cases hfinite
  · rw [hk] at hsurpasses ⊢
    exact hsurpasses.eq_of_tangible.symm

def tangibleFactor : Grid (Element Exact) 2 2 :=
  ⟨#v[⟨.int 0, false⟩, ⟨.int 0, false⟩, ⟨.int 0, false⟩, ⟨.int 1, false⟩]⟩

def steepFactor : Grid (Element Exact) 2 2 :=
  ⟨#v[⟨.int 9, false⟩, ⟨.int 9, false⟩, ⟨.int 0, false⟩, ⟨.int 1, false⟩]⟩

theorem permanent_mul_ghostSurpasses_two_rows :
    Normal ⟨2, 2, tangibleFactor⟩ ∧ Normal ⟨2, 2, steepFactor⟩ ∧
      2 ≤ Plan.sequential.maxOrder ∧
      permanent .sequential ⟨2, 2, tangibleFactor⟩ = .ok ⟨.int 1, false⟩ ∧
      permanent .sequential ⟨2, 2, steepFactor⟩ = .ok ⟨.int 10, false⟩ ∧
      ∃ C r s, mul ⟨2, 2, tangibleFactor⟩ ⟨2, 2, steepFactor⟩ = .ok C ∧
        C.permanent .sequential = .ok r ∧ r = ⟨.int 18, true⟩ ∧
        Element.mul (W := Exact) ⟨.int 1, false⟩ ⟨.int 10, false⟩ = .ok s ∧
        r.ghostSurpasses s = true := by
  have hp : permanent .sequential ⟨2, 2, tangibleFactor⟩ = .ok ⟨.int 1, false⟩ := by cbv
  have hq : permanent .sequential ⟨2, 2, steepFactor⟩ = .ok ⟨.int 10, false⟩ := by cbv
  have hr : (mul ⟨2, 2, tangibleFactor⟩ ⟨2, 2, steepFactor⟩ >>= permanent .sequential) =
      .ok ⟨.int 18, true⟩ := by cbv
  obtain ⟨C, p, q, r, s, hC, hp', hq', hr', hs, hsurpasses, -⟩ :=
    permanent_mul_ghostSurpasses .sequential (A := tangibleFactor) (B := steepFactor) (by decide)
      (by decide) (by decide)
  obtain rfl := Except.ok.inj (hp.symm.trans hp')
  obtain rfl := Except.ok.inj (hq.symm.trans hq')
  rw [hC] at hr
  have hvalue : r = ⟨.int 18, true⟩ := Except.ok.inj (hr'.symm.trans hr)
  exact ⟨by decide, by decide, by decide, hp, hq, C, r, s, hC, hr', hvalue, hs, hsurpasses⟩

/-- The adjoint of a product ghost-surpasses the product of the adjoints in the other order. -/
theorem adjoint_mul_ghostSurpasses (plan : Plan) {n : ℕ} {A B : Grid (Element Exact) n n}
    (hA : Normal ⟨n, n, A⟩) (hB : Normal ⟨n, n, B⟩) (horder : n ≤ plan.maxOrder) :
    ∃ C adjA adjB adjC D, mul ⟨n, n, A⟩ ⟨n, n, B⟩ = .ok C ∧
      adjoint plan ⟨n, n, A⟩ = .ok adjA ∧ adjoint plan ⟨n, n, B⟩ = .ok adjB ∧
      C.adjoint plan = .ok adjC ∧ adjB.mul adjA = .ok D ∧ adjC.ghostSurpasses D = true := by
  obtain ⟨A, rfl⟩ := A.exists_elements_eq hA
  obtain ⟨B, rfl⟩ := B.exists_elements_eq hB
  have hsurpasses := ghostSurpasses_elements.mpr (A.adjoint_mul_surpasses B)
  exact ⟨_, _, _, _, _, mul_elements A B, adjoint_elements plan A horder,
    adjoint_elements plan B horder, adjoint_elements plan (A.mul B) horder,
    mul_elements B.adjoint A.adjoint, hsurpasses⟩

def leadingColumn : Grid (Element Exact) 3 3 :=
  ⟨#v[⟨.int 0, false⟩, ⟨.int 0, false⟩, ⟨.bot, false⟩, ⟨.int 0, false⟩, ⟨.int 1, false⟩,
    ⟨.int 0, true⟩, ⟨.bot, false⟩, ⟨.int 0, false⟩, ⟨.int 2, false⟩]⟩

def leadingRow : Grid (Element Exact) 3 3 :=
  ⟨#v[⟨.int 9, false⟩, ⟨.int 9, false⟩, ⟨.bot, false⟩, ⟨.int 0, false⟩, ⟨.int 1, false⟩,
    ⟨.int 0, false⟩, ⟨.bot, false⟩, ⟨.int 0, false⟩, ⟨.int 1, false⟩]⟩

theorem adjoint_mul_ghostSurpasses_three_rows :
    Normal ⟨3, 3, leadingColumn⟩ ∧ Normal ⟨3, 3, leadingRow⟩ ∧
      3 ≤ Plan.sequential.maxOrder ∧
      ∃ C adjA adjB adjC D, mul ⟨3, 3, leadingColumn⟩ ⟨3, 3, leadingRow⟩ = .ok C ∧
        adjoint .sequential ⟨3, 3, leadingColumn⟩ = .ok adjA ∧
        adjoint .sequential ⟨3, 3, leadingRow⟩ = .ok adjB ∧
        C.adjoint .sequential = .ok adjC ∧ adjC.get 2 2 = .ok ⟨.int 18, true⟩ ∧
        adjB.mul adjA = .ok D ∧ D.get 2 2 = .ok ⟨.int 11, false⟩ ∧
        adjC.ghostSurpasses D = true := by
  have hA : Normal ⟨3, 3, leadingColumn⟩ := by decide
  have hB : Normal ⟨3, 3, leadingRow⟩ := by decide
  have hleft : (do
      let C ← mul ⟨3, 3, leadingColumn⟩ ⟨3, 3, leadingRow⟩
      (← C.adjoint .sequential).get 2 2) = .ok ⟨.int 18, true⟩ := by cbv
  have hright : (do
      let adjA ← adjoint .sequential ⟨3, 3, leadingColumn⟩
      let adjB ← adjoint .sequential ⟨3, 3, leadingRow⟩
      (← adjB.mul adjA).get 2 2) = .ok ⟨.int 11, false⟩ := by cbv
  obtain ⟨C, adjA, adjB, adjC, D, hC, hadjA, hadjB, hadjC, hD, hsurpasses⟩ :=
    adjoint_mul_ghostSurpasses .sequential hA hB (by decide)
  rw [hC] at hleft
  simp only [bind, Except.bind, hadjC] at hleft
  simp only [hadjA, hadjB, bind, Except.bind, hD] at hright
  exact ⟨hA, hB, by decide, C, adjA, adjB, adjC, D, hC, hadjA, hadjB, hadjC, hleft, hD, hright,
    hsurpasses⟩

end Matrix

end MaxPlus
