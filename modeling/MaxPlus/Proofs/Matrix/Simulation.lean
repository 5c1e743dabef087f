import MaxPlus.Proofs.Element.Simulation
import MaxPlus.Proofs.Matrix.Normal
import MaxPlus.Proofs.Matrix.Plan

/-!
Matrices over one weight type that follow matrices over another.

If the elements of the second type keep up with every operation that succeeds in the first, the
products, the permanents, the adjoints and the solutions of related matrices are related wherever
the first ones exist.
-/

set_option autoImplicit false
set_option relaxedAutoImplicit false

namespace MaxPlus

variable {W V : Type} [Weight W] [Weight V] {P : Element W → Element V → Prop}

namespace Plan

variable (plan : Plan) {n : ℕ} {A : Grid (Element W) n n} {A' : Grid (Element V) n n}

theorem permanent_follows (h : Element.Simulates P) (hA : ∀ i j, P (A i j) (A' i j)) :
    Follows P (plan.permanent A) (plan.permanent A') :=
  plan.checkOrder_follows n
    (Follows.demanded (plan.computePermanent_related h.respects (Grid.computed_follows hA)))

theorem adjoint_follows (h : Element.Simulates P) (hA : ∀ i j, P (A i j) (A' i j)) :
    Follows (fun B B' => ∀ i j, P (B i j) (B' i j)) (plan.adjoint A) (plan.adjoint A') := by
  rw [adjoint, adjoint, computeAdjoint_eq_adjoint, computeAdjoint_eq_adjoint]
  exact plan.checkOrder_follows n
    (Grid.settled_follows (Grid.adjoint_related h.respects (Grid.computed_follows hA)))

theorem solve_follows (h : Element.Simulates P) (hA : ∀ i j, P (A i j) (A' i j))
    {b : Grid (Element W) n 1} {b' : Grid (Element V) n 1} (hb : ∀ i j, P (b i j) (b' i j)) :
    Follows (fun x x' => ∀ i j, P (x i j) (x' i j)) (plan.solve A b) (plan.solve A' b') := by
  rw [solve, solve]
  refine (plan.permanent_follows h hA).bind fun {p p'} hp => ?_
  cases hinverse : p.tangibleInverse? with
  | none => exact .error _ _
  | some inverse =>
    obtain ⟨inverse', hinverse', hrelated⟩ := h.tangibleInverse? hp hinverse
    rw [hinverse']
    exact (plan.adjoint_follows h hA).bind fun hadj =>
      (Grid.settled_follows (Grid.mul_related h.respects (Grid.computed_follows hadj)
        (Grid.computed_follows hb))).bind fun hprod =>
      Grid.settled_follows (Grid.scale_related h.respects (Grid.computed_follows hprod)
        (.ok hrelated))

end Plan

namespace Matrix

inductive Linked (P : Element W → Element V → Prop) :
    Matrix (Element W) → Matrix (Element V) → Prop
  | mk {r c : ℕ} {A : Grid (Element W) r c} {A' : Grid (Element V) r c}
    (h : ∀ i j, P (A i j) (A' i j)) : Linked P ⟨r, c, A⟩ ⟨r, c, A'⟩

variable {A : Matrix (Element W)} {A' : Matrix (Element V)}

theorem mul_follows (h : Element.Simulates P) (hA : Linked P A A') {B : Matrix (Element W)}
    {B' : Matrix (Element V)} (hB : Linked P B B') :
    Follows (Linked P) (A.mul B) (A'.mul B') := by
  obtain @⟨r, k, A, A', hA⟩ := hA
  obtain @⟨k', c, B, B', hB⟩ := hB
  rw [mul_def, mul_def]
  by_cases hshape : k = k'
  · subst hshape
    rw [dif_pos rfl, dif_pos rfl, Grid.cast_rfl, Grid.cast_rfl]
    exact (Grid.settled_follows (Grid.mul_related h.respects (Grid.computed_follows hA)
      (Grid.computed_follows hB))).bind fun hC => .ok (.mk hC)
  · rw [dif_neg hshape]
    exact .error _ _

theorem mulByRows_eq_mul (A B : Matrix (Element W)) : A.mulByRows B = A.mul B := by
  have hdef : A.mulByRows B =
      if h : A.cols = B.rows then do
        let g ← (A.grid.computed.mulByRows (B.grid.cast h.symm rfl).computed).settled
        return ⟨A.rows, B.cols, g⟩
      else .error (.error (.shapeMismatch .matrixProduct A.shape B.shape)) := rfl
  simp only [hdef, mul_def, Grid.mulByRows_eq_mul]

theorem scale_follows (h : Element.Simulates P) (hA : Linked P A A') {x : Element W}
    {x' : Element V} (hx : P x x') : Follows (Linked P) (A.scale x) (A'.scale x') := by
  obtain @⟨r, c, A, A', hA⟩ := hA
  exact (Grid.settled_follows (Grid.scale_related h.respects (Grid.computed_follows hA)
    (.ok hx))).bind fun hC => .ok (.mk hC)

theorem permanent_follows (plan : Plan) (h : Element.Simulates P) (hA : Linked P A A') :
    Follows P (A.permanent plan) (A'.permanent plan) := by
  obtain @⟨n, m, A, A', hA⟩ := hA
  by_cases hsquare : m = n
  · subst hsquare
    rw [permanent_mk, permanent_mk]
    exact plan.permanent_follows h hA
  · rw [permanent_of_not_square hsquare]
    exact .error _ _

theorem adjoint_follows (plan : Plan) (h : Element.Simulates P) (hA : Linked P A A') :
    Follows (Linked P) (A.adjoint plan) (A'.adjoint plan) := by
  obtain @⟨n, m, A, A', hA⟩ := hA
  by_cases hsquare : m = n
  · subst hsquare
    rw [adjoint_mk, adjoint_mk]
    exact (plan.adjoint_follows h hA).map .mk
  · rw [adjoint_of_not_square hsquare]
    exact .error _ _

theorem solve_follows (plan : Plan) (h : Element.Simulates P) (hA : Linked P A A')
    {b : Matrix (Element W)} {b' : Matrix (Element V)} (hb : Linked P b b') :
    Follows (Linked P) (A.solve plan b) (A'.solve plan b') := by
  obtain @⟨n, m, A, A', hA⟩ := hA
  obtain @⟨r, c, b, b', hb⟩ := hb
  by_cases hsquare : m = n
  · subst hsquare
    by_cases hshape : shape ⟨r, c, b⟩ = ⟨m, 1⟩
    · cases hshape
      rw [solve_mk, solve_mk]
      exact (plan.solve_follows h hA hb).map .mk
    · rw [solve_of_not_column (A := ⟨m, m, A⟩) rfl hshape]
      exact .error _ _
  · rw [solve_of_not_square hsquare]
    exact .error _ _

theorem mulVec_follows (h : Element.Simulates P) (hA : Linked P A A') {xs : List (Element W)}
    {xs' : List (Element V)} (hxs : List.Forall₂ P xs xs') :
    Follows (List.Forall₂ P) (A.mulVec xs) (A'.mulVec xs') := by
  obtain @⟨r, c, A, A', hA⟩ := hA
  have hlength := hxs.length_eq
  rw [mulVec, mulVec]
  by_cases hshape : xs.length = c
  · rw [dif_pos hshape, dif_pos (hlength ▸ hshape)]
    have hrows := Grid.mulVec_toList_related h.respects (Grid.computed_follows hA)
      (List.rel_map (fun _ _ hab => .ok hab) hxs)
    exact (Follows.mapM (hrows _ _) id).demanded
  · rw [dif_neg hshape]
    exact .error _ _

end Matrix

end MaxPlus
